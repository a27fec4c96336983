import BikesNest.Erasure

/-! The queue of background jobs: the statements of the repository on the table of jobs, and what
a worker and the inline dispatcher write at the end of an attempt. A statement runs at one reading
of the clock; what another transaction has locked is an argument of the statements that skip it. -/

namespace Jobs

open Parking Schema Credentials Outcome Erasure

/-- A row of `background_job` with the columns that schedule it. -/
structure QueuedJob extends JobRow where
  attempts : ℕ
  maxAttempts : ℤ
  runAt : Instant
  schedule : Option Json
  startedAt : Option Instant
  idempotencyKey : Option String
  mailTokenHash : Option Digest
  mailPurpose : Option String
  mailTokenExpiresAt : Option Instant

abbrev JobTable := Table ℕ QueuedJob fun j => j.id

/-- Why a registration is refused. -/
inductive InvalidRecurring where
  | arguments
  | schedule
  | noFutureRun
  | otherJob (key : String)
  | otherSchedule (key : String)
  deriving DecidableEq

inductive JobRepoError where
  | db
  | invalidRecurring (reason : InvalidRecurring)
  | reconciliationDeferred (key : String)
  | invalidMailCredential
  | lostOwnership (id : ℕ)
  deriving DecidableEq

/-! Schedules. The parser of cron expressions is a parameter: the next tick of an expression after
an instant, when it parses and has one. -/

abbrev Cron := String → Instant → Option Instant

inductive ScheduleError where
  | notObject
  | notPositive (secs : ℤ)
  | cron (expr : String)
  | unsupported
  deriving DecidableEq

/-- `normalize_cron`: five fields get their seconds. -/
def normalizeCron (expr : String) : String :=
  if ((expr.toList.splitOnP isWhitespace).filter fun w => !w.isEmpty).length = 5
  then "0 " ++ expr else expr

def nextRunAt (cron : Cron) (schedule : Option Json) (now : Instant) :
    Except ScheduleError (Option Instant) :=
  match schedule with
  | none | some .null => .ok none
  | some (.obj fields) =>
    match (Json.get "every_seconds" (.obj fields)).bind Json.asI64 with
    | some secs => if secs ≤ 0 then .error (.notPositive secs) else .ok (some (now + secs * 1000000))
    | none =>
      match (Json.get "cron" (.obj fields)).bind Json.asStr with
      | some expr =>
        match cron (normalizeCron expr) now with
        | some next => .ok (some next)
        | none => .error (.cron expr)
      | none => .error .unsupported
  | some _ => .error .notObject

/-- The run after `now`, when there is one. -/
def nextRun (cron : Cron) (schedule : Option Json) (now : Instant) : Option Instant :=
  match nextRunAt cron schedule now with
  | .ok next => next
  | .error _ => none

/-- `backoff_ms`, with the jitter that was drawn. -/
def backoffMs (attempt base jitter : ℕ) : ℕ :=
  min (min (base * 2 ^ min (attempt - 1) 63) (2 ^ 64 - 1) + jitter) (2 ^ 64 - 1)

/-- `as i64`. -/
def wrapI64 (n : ℕ) : ℤ := if n < 2 ^ 63 then n else n - 2 ^ 64

/-! Leases. -/

def milliseconds (n : ℤ) : Instant := n * 1000

/-- The lease is over, so that the row may be claimed again. -/
def QueuedJob.expired (clock : Instant) (j : QueuedJob) : Prop := ∃ l ∈ j.leaseExpiresAt, l < clock

def QueuedJob.lapsed (clock : Instant) (j : QueuedJob) : Prop := ∃ l ∈ j.leaseExpiresAt, l ≤ clock

/-- The lease runs, so that its owner may write. -/
def QueuedJob.leased (clock : Instant) (j : QueuedJob) : Prop := ∃ l ∈ j.leaseExpiresAt, clock < l

instance (clock : Instant) (j : QueuedJob) : Decidable (j.expired clock) :=
  inferInstanceAs (Decidable (∃ l ∈ j.leaseExpiresAt, _))

instance (clock : Instant) (j : QueuedJob) : Decidable (j.lapsed clock) :=
  inferInstanceAs (Decidable (∃ l ∈ j.leaseExpiresAt, _))

instance (clock : Instant) (j : QueuedJob) : Decidable (j.leased clock) :=
  inferInstanceAs (Decidable (∃ l ∈ j.leaseExpiresAt, _))

/-! Claims. -/

structure ClaimedJob where
  id : ℕ
  kind : String
  payload : Json
  attempts : ℕ
  maxAttempts : ℤ
  schedule : Option Json
  owner : String

def QueuedJob.claim (owner : String) (ttl : ℕ) (clock : Instant) (j : QueuedJob) : QueuedJob :=
  { j with
    state := .running
    claimedBy := some owner
    leaseExpiresAt := some (clock + milliseconds ttl)
    heartbeatAt := some clock
    startedAt := j.startedAt.or (some clock)
    attempts := j.attempts + 1 }

/-- What the `UPDATE` of a claim returns of a row. -/
def QueuedJob.claimed (owner : String) (j : QueuedJob) : ClaimedJob :=
  ⟨j.id, j.kind, j.payload, j.attempts + 1, j.maxAttempts, j.schedule, owner⟩

def grant (jobs : JobTable) (p : QueuedJob → Bool) (owner : String) (ttl : ℕ) (clock : Instant) :
    JobTable × List ClaimedJob :=
  (jobs.update p (QueuedJob.claim owner ttl clock) fun _ => rfl,
    (jobs.rows.filter p).map (QueuedJob.claimed owner))

/-- The condition of `claim_id`. -/
def claimableById (id : ℕ) (clock : Instant) (j : QueuedJob) : Bool :=
  decide (j.id = id ∧ j.kind = "email.send" ∧ j.runAt ≤ clock ∧ j.attempts < j.maxAttempts ∧
    (j.state = .pending ∨ j.state = .running ∧ j.lapsed clock))

def claimId (jobs : JobTable) (id : ℕ) (owner : String) (ttl : ℕ) (clock : Instant) :
    JobTable × List ClaimedJob :=
  grant jobs (claimableById id clock) owner ttl clock

def ofKinds (kinds : Option (List String)) (j : QueuedJob) : Bool :=
  kinds.all fun ks => ks.contains j.kind

def duePending (kinds : Option (List String)) (clock : Instant) (j : QueuedJob) : Bool :=
  decide (j.state = .pending ∧ j.runAt ≤ clock) && ofKinds kinds j

def dueExpired (kinds : Option (List String)) (clock : Instant) (j : QueuedJob) : Bool :=
  decide (j.state = .running ∧ j.expired clock ∧ j.attempts < j.maxAttempts ∧ j.runAt ≤ clock) &&
    ofKinds kinds j

/-- `ORDER BY run_at, id`. -/
def earlier (i j : QueuedJob) : Prop := i.runAt < j.runAt ∨ i.runAt = j.runAt ∧ i.id ≤ j.id

instance : DecidableRel earlier := fun i j =>
  inferInstanceAs (Decidable (i.runAt < j.runAt ∨ i.runAt = j.runAt ∧ i.id ≤ j.id))

def firstDue (jobs : JobTable) (batch : ℕ) (locked : ℕ → Bool) (p : QueuedJob → Bool) :
    List QueuedJob :=
  ((jobs.rows.filter fun j => !locked j.id && p j).insertionSort earlier).take batch

def candidates (jobs : JobTable) (batch : ℕ) (kinds : Option (List String)) (locked : ℕ → Bool)
    (clock : Instant) : List QueuedJob :=
  ((firstDue jobs batch locked (duePending kinds clock) ++
    firstDue jobs batch locked (dueExpired kinds clock)).insertionSort earlier).take batch

/-- The second statement of `claim_inner`. It reads the clock once for all of its conditions, and
again when it writes. -/
def claim (jobs : JobTable) (batch : ℕ) (owner : String) (ttl : ℕ) (kinds : Option (List String))
    (locked : ℕ → Bool) (read clock : Instant) : JobTable × List ClaimedJob :=
  let chosen := (candidates jobs batch kinds locked read).map fun j => j.id
  grant jobs (fun j => chosen.contains j.id) owner ttl clock

/-! Outcomes. -/

def QueuedJob.isMail (j : QueuedJob) : Bool := decide (j.kind = "email.send")

/-- What the terminal statements take out of a mail. -/
def QueuedJob.scrub (clock : Instant) (j : QueuedJob) : QueuedJob :=
  { j with
    payload := if j.isMail then .obj [] else j.payload
    payloadRedactedAt :=
      if j.isMail then j.payloadRedactedAt.or (some clock) else j.payloadRedactedAt
    mailRecipientHash := if j.isMail then none else j.mailRecipientHash
    mailTransitionAuditId := if j.isMail then none else j.mailTransitionAuditId }

/-- Back to the queue, to run at `runAt`. -/
def QueuedJob.requeue (runAt : Instant) (j : QueuedJob) : QueuedJob :=
  { j with
    state := .pending, runAt := runAt, claimedBy := none, leaseExpiresAt := none
    heartbeatAt := none, startedAt := none }

/-- `DEAD_LETTER_SET`. -/
def QueuedJob.deadLetter (error : String) (clock : Instant) (j : QueuedJob) : QueuedJob :=
  { j.scrub clock with
    state := .failed, finishedAt := some clock, lastError := some error, claimedBy := none
    leaseExpiresAt := none, heartbeatAt := none }

/-- An occurrence that failed for good, of a job that has another. -/
def QueuedJob.reschedule (error : String) (next : Instant) (j : QueuedJob) : QueuedJob :=
  { j.requeue next with attempts := 0, lastError := some error }

def exhaustedLeaseError : String :=
  "lease expired after the final attempt (worker crashed or the handler hung)"

def exhausted (kinds : Option (List String)) (clock : Instant) (j : QueuedJob) : Bool :=
  decide (j.state = .running ∧ j.expired clock ∧ j.maxAttempts ≤ j.attempts) && ofKinds kinds j

def exhaustedLeases (jobs : JobTable) (kinds : Option (List String)) (locked : ℕ → Bool)
    (clock : Instant) : List QueuedJob :=
  ((jobs.rows.filter fun j => !locked j.id && exhausted kinds clock j).insertionSort
    fun i j => i.id ≤ j.id).take 100

def QueuedJob.finalize (cron : Cron) (wall clock : Instant) (j : QueuedJob) : QueuedJob :=
  match nextRun cron j.schedule wall with
  | some next => j.reschedule exhaustedLeaseError next
  | none => j.deadLetter exhaustedLeaseError clock

theorem finalize_id (cron : Cron) (wall clock : Instant) (j : QueuedJob) :
    (j.finalize cron wall clock).id = j.id := by
  unfold QueuedJob.finalize
  split <;> rfl

/-- `finalize_exhausted_leases`; `wall` is the time of the process. -/
def finalizeExhaustedLeases (cron : Cron) (jobs : JobTable) (kinds : Option (List String))
    (locked : ℕ → Bool) (wall clock : Instant) : JobTable :=
  let chosen := (exhaustedLeases jobs kinds locked clock).map fun j => j.id
  jobs.update (fun j => chosen.contains j.id) (QueuedJob.finalize cron wall clock)
    (finalize_id cron wall clock)

def QueuedJob.owned (owner : String) (clock : Instant) (j : QueuedJob) : Prop :=
  j.state = .running ∧ j.claimedBy = some owner ∧ j.leased clock

instance (owner : String) (clock : Instant) (j : QueuedJob) : Decidable (j.owned owner clock) :=
  inferInstanceAs (Decidable (_ ∧ _))

/-- A statement of the owner of a claim, on rows that also satisfy `asks`. -/
def writeOwned (jobs : JobTable) (id : ℕ) (owner : String) (clock : Instant)
    (asks : QueuedJob → Bool) (f : QueuedJob → QueuedJob) (hf : ∀ j, (f j).id = j.id) :
    Except JobRepoError JobTable := do
  ensure (∃ j ∈ jobs.find id, j.owned owner clock ∧ asks j) (.lostOwnership id)
  pure (jobs.update (fun j => decide (j.id = id)) f hf)

def QueuedJob.extend (ttl : ℕ) (clock : Instant) (j : QueuedJob) : QueuedJob :=
  { j with heartbeatAt := some clock, leaseExpiresAt := some (clock + milliseconds ttl) }

def heartbeat (jobs : JobTable) (id : ℕ) (owner : String) (ttl : ℕ) (clock : Instant) :
    Except JobRepoError JobTable :=
  writeOwned jobs id owner clock (fun _ => true) (QueuedJob.extend ttl clock) fun _ => rfl

def QueuedJob.finish (next : Option Instant) (finishedAt clock : Instant) (j : QueuedJob) :
    QueuedJob :=
  match next with
  | some next =>
    { j.requeue next with attempts := 0, lastError := none, finishedAt := some finishedAt }
  | none =>
    { j.scrub clock with
      state := .succeeded, finishedAt := some finishedAt, claimedBy := none
      leaseExpiresAt := none, heartbeatAt := none, startedAt := none }

theorem finish_id (next : Option Instant) (finishedAt clock : Instant) (j : QueuedJob) :
    (j.finish next finishedAt clock).id = j.id := by
  unfold QueuedJob.finish
  split <;> rfl

def finishSuccess (jobs : JobTable) (id : ℕ) (owner : String) (next : Option Instant)
    (finishedAt clock : Instant) : Except JobRepoError JobTable :=
  writeOwned jobs id owner clock (fun _ => true) (QueuedJob.finish next finishedAt clock)
    (finish_id next finishedAt clock)

def retry (jobs : JobTable) (id : ℕ) (owner error : String) (runAt clock : Instant) :
    Except JobRepoError JobTable :=
  writeOwned jobs id owner clock (fun _ => true)
    (fun j => { j.requeue runAt with lastError := some error }) fun _ => rfl

def rescheduleAfterFailure (jobs : JobTable) (id : ℕ) (owner error : String)
    (next clock : Instant) : Except JobRepoError JobTable :=
  writeOwned jobs id owner clock (fun j => j.schedule.isSome) (QueuedJob.reschedule error next)
    fun _ => rfl

def fail (jobs : JobTable) (id : ℕ) (owner error : String) (clock : Instant) :
    Except JobRepoError JobTable :=
  writeOwned jobs id owner clock (fun _ => true) (QueuedJob.deadLetter error clock) fun _ => rfl

/-- The statement that ends an attempt. -/
inductive Outcome where
  | finishSuccess (next : Option Instant) (finishedAt : Instant)
  | retry (error : String) (runAt : Instant)
  | rescheduleAfterFailure (error : String) (next : Instant)
  | fail (error : String)

def Outcome.write (o : Outcome) (jobs : JobTable) (id : ℕ) (owner : String) (clock : Instant) :
    Except JobRepoError JobTable :=
  match o with
  | .finishSuccess next finishedAt => Jobs.finishSuccess jobs id owner next finishedAt clock
  | .retry error runAt => Jobs.retry jobs id owner error runAt clock
  | .rescheduleAfterFailure error next =>
    Jobs.rescheduleAfterFailure jobs id owner error next clock
  | .fail error => Jobs.fail jobs id owner error clock

/-! What ends an attempt. -/

inductive HandlerResult where
  | ok
  | failed (error : String)
  | permanent (error : String)
  deriving DecidableEq

/-- `reschedule_recurring_failure`, or else the end of the row. -/
def giveUp (cron : Cron) (job : ClaimedJob) (error : String) (now : Instant) : Outcome :=
  match nextRun cron job.schedule now with
  | some next => .rescheduleAfterFailure error next
  | none => .fail error

/-- What `run_job` writes, with the delay of a retry. A panic and a time-out are failures; a worker
that lost its heartbeat or is shut down writes nothing. -/
def runJob (cron : Cron) (registered : Bool) (job : ClaimedJob) (result : HandlerResult)
    (now : Instant) (base jitter : ℕ) : Outcome :=
  if registered then
    match result with
    | .ok =>
      match nextRunAt cron job.schedule now with
      | .ok next => .finishSuccess next now
      | .error _ => .fail "invalid schedule"
    | .failed error =>
      if job.attempts < job.maxAttempts then
        .retry error (now + milliseconds (wrapI64 (backoffMs job.attempts base jitter)))
      else giveUp cron job error now
    | .permanent error => giveUp cron job error now
  else .fail ("no handler registered for kind '" ++ job.kind ++ "'")

/-- What the inline dispatcher writes. -/
def dispatch (job : ClaimedJob) (result : HandlerResult) (now : Instant) : Outcome :=
  match result with
  | .ok => .finishSuccess none now
  | .permanent error => .fail error
  | .failed error =>
    if job.attempts < job.maxAttempts then .retry error (now + milliseconds 2000)
    else .fail error

/-! New rows. -/

def isTerminal (s : JobState) : Prop := s = .succeeded ∨ s = .failed

instance (s : JobState) : Decidable (isTerminal s) := inferInstanceAs (Decidable (_ ∨ _))

/-- `gc`. -/
def gc (jobs : JobTable) (cutoff : Instant) : JobTable :=
  jobs.delete fun j => decide (isTerminal j.state ∧ j.schedule = none ∧
    ∃ t ∈ j.finishedAt, t < cutoff)

/-- A row as the column defaults leave it. -/
def newJob (id : ℕ) (kind : String) (payload : Json) (runAt : Instant) (schedule : Option Json)
    (maxAttempts : ℤ) (idempotencyKey : Option String) : QueuedJob where
  id := id
  kind := kind
  payload := payload
  state := .pending
  claimedBy := none
  leaseExpiresAt := none
  heartbeatAt := none
  lastError := none
  finishedAt := none
  mailAccountId := none
  mailRecipientHash := none
  mailTransitionAuditId := none
  payloadRedactedAt := none
  attempts := 0
  maxAttempts := maxAttempts
  runAt := runAt
  schedule := schedule
  startedAt := none
  idempotencyKey := idempotencyKey
  mailTokenHash := none
  mailPurpose := none
  mailTokenExpiresAt := none

def QueuedJob.keyed (key : Option String) (j : QueuedJob) : Bool :=
  decide (key.isSome = true ∧ j.idempotencyKey = key)

/-- `INSERT … ON CONFLICT (idempotency_key) DO NOTHING`, and whether the row went in. -/
def insertUnlessKeyed (jobs : JobTable) (row : QueuedJob) :
    Except JobRepoError (JobTable × Bool) :=
  if jobs.rows.any (QueuedJob.keyed row.idempotencyKey) then pure (jobs, false)
  else do
    let jobs ← orFail (jobs.insert row) .db
    pure (jobs, true)

/-- `enqueue`; the id is what the sequence of the table gives. -/
def enqueue (jobs : JobTable) (id : ℕ) (kind : String) (payload : Json) (runAt : Instant)
    (maxAttempts : Option ℤ) (idempotencyKey : Option String) :
    Except JobRepoError (JobTable × Bool) := do
  ensure (textOk kind ∧ payload.storable ∧ idempotencyKey.all textOk) .db
  insertUnlessKeyed jobs (newJob id kind payload runAt none (maxAttempts.getD 5) idempotencyKey)

/-- A mail that was admitted, as its row records it. -/
structure AdmittedMail where
  payload : Json
  accountId : UserId
  tokenHash : Option Digest
  purpose : String
  tokenExpiresAt : Option Instant
  recipientHash : Digest
  transitionAuditId : Option ℕ
  runAt : Instant
  maxAttempts : ℤ
  key : String

/-- The `INSERT` of `enqueue_mail_on`. -/
def enqueueMail (jobs : JobTable) (id : ℕ) (mail : AdmittedMail) :
    Except JobRepoError (JobTable × Bool) :=
  insertUnlessKeyed jobs
    { newJob id "email.send" mail.payload mail.runAt none mail.maxAttempts (some mail.key) with
      mailAccountId := some mail.accountId, mailTokenHash := mail.tokenHash
      mailPurpose := some mail.purpose, mailTokenExpiresAt := mail.tokenExpiresAt
      mailRecipientHash := some mail.recipientHash
      mailTransitionAuditId := mail.transitionAuditId }

structure Registration where
  kind : String
  payload : Json
  schedule : Json
  runAt : Instant
  maxAttempts : ℤ
  key : String

inductive RegistrationOutcome where
  | inserted
  | healthyPreserved
  | pendingScheduleRepaired
  | terminalReactivated
  | runningPreserved
  | failedRevived
  deriving DecidableEq

/-- The run that a registration asks its schedule for. -/
def Registration.next (cron : Cron) (a : Registration) : Except JobRepoError Instant := do
  ensure (a.kind ≠ "" ∧ a.key ≠ "" ∧ 0 < a.maxAttempts) (.invalidRecurring .arguments)
  match nextRunAt cron (some a.schedule) a.runAt with
  | .error _ => .error (.invalidRecurring .schedule)
  | .ok none => .error (.invalidRecurring .noFutureRun)
  | .ok (some next) => pure next

/-- The checks of `register_recurring` and its `INSERT`. -/
def reserve (cron : Cron) (jobs : JobTable) (id : ℕ) (a : Registration) :
    Except JobRepoError (JobTable × Bool) := do
  let _ ← a.next cron
  ensure (textOk a.kind ∧ a.payload.storable ∧ a.schedule.storable ∧ textOk a.key) .db
  insertUnlessKeyed jobs
    (newJob id a.kind a.payload a.runAt (some a.schedule) a.maxAttempts (some a.key))

/-- A pending row gets the schedule that it lacked. -/
def QueuedJob.adopt (a : Registration) (j : QueuedJob) : QueuedJob :=
  { j with schedule := some a.schedule, maxAttempts := a.maxAttempts }

def QueuedJob.revive (runAt : Instant) (schedule : Option Json) (maxAttempts : ℤ) (j : QueuedJob) :
    QueuedJob :=
  { j.requeue runAt with attempts := 0, schedule := schedule, maxAttempts := maxAttempts }

/-- What follows when the key was taken: the row is locked, read and repaired. -/
def repair (cron : Cron) (jobs : JobTable) (a : Registration) :
    Except JobRepoError (JobTable × RegistrationOutcome) := do
  let next ← a.next cron
  let j ← orFail (jobs.rows.find? (QueuedJob.keyed (some a.key))) .db
  let set (f : QueuedJob → QueuedJob) (hf : ∀ j, (f j).id = j.id) : JobTable :=
    jobs.update (fun r => decide (r.id = j.id)) f hf
  ensure (j.kind = a.kind ∧ j.payload = a.payload) (.invalidRecurring (.otherJob a.key))
  ensure (∀ s ∈ j.schedule, s = a.schedule) (.invalidRecurring (.otherSchedule a.key))
  match j.state, j.schedule with
  | .running, none => .error (.reconciliationDeferred a.key)
  | .running, some _ => pure (jobs, .runningPreserved)
  | .pending, some _ => pure (jobs, .healthyPreserved)
  | .pending, none => pure (set (QueuedJob.adopt a) fun _ => rfl, .pendingScheduleRepaired)
  | .failed, some s =>
    pure (set (QueuedJob.revive next (some s) a.maxAttempts) fun _ => rfl, .failedRevived)
  | .succeeded, _ | .failed, none =>
    pure (set (QueuedJob.revive a.runAt (some a.schedule) a.maxAttempts) fun _ => rfl,
      .terminalReactivated)

/-! What a statement that succeeds went through. -/

variable {jobs jobs' : JobTable} {id : ℕ} {owner : String} {clock : Instant}

theorem writeOwned_ok {asks : QueuedJob → Bool} {f : QueuedJob → QueuedJob}
    {hf : ∀ j, (f j).id = j.id} : writeOwned jobs id owner clock asks f hf = .ok jobs' ↔
      (∃ j, jobs.find id = some j ∧ j.owned owner clock ∧ asks j = true) ∧
        jobs' = jobs.update (fun j => decide (j.id = id)) f hf := by
  simp only [writeOwned, bind_ok, ensure_ok, pure_ok, exists_const, eq_comm (a := jobs')]
  rfl

/-- Without the lease there is nothing to be written. -/
theorem writeOwned_lost {asks : QueuedJob → Bool} {f : QueuedJob → QueuedJob}
    {hf : ∀ j, (f j).id = j.id}
    (lost : ∀ j, jobs.find id = some j → ¬ j.owned owner clock) :
    writeOwned jobs id owner clock asks f hf = .error (.lostOwnership id) := by
  unfold writeOwned
  rw [ensure_not, error_bind]
  rintro ⟨j, found, owned, -⟩
  exact lost j found owned

/-- What an outcome writes to its row. -/
def Outcome.apply (o : Outcome) (clock : Instant) (j : QueuedJob) : QueuedJob :=
  match o with
  | .finishSuccess next finishedAt => j.finish next finishedAt clock
  | .retry error runAt => { j.requeue runAt with lastError := some error }
  | .rescheduleAfterFailure error next => j.reschedule error next
  | .fail error => j.deadLetter error clock

theorem Outcome.apply_id (o : Outcome) (clock : Instant) (j : QueuedJob) :
    (o.apply clock j).id = j.id := by
  cases o with
  | finishSuccess next finishedAt => exact finish_id next finishedAt clock j
  | _ => rfl

theorem Outcome.write_ok {o : Outcome} (h : o.write jobs id owner clock = .ok jobs') :
    (∃ j, jobs.find id = some j ∧ j.owned owner clock ∧
        ((∃ error next, o = .rescheduleAfterFailure error next) → j.schedule.isSome = true)) ∧
      jobs' = jobs.update (fun j => decide (j.id = id)) (o.apply clock) (o.apply_id clock) := by
  cases o with
  | rescheduleAfterFailure error next =>
    obtain ⟨⟨j, found, owned, scheduled⟩, rfl⟩ := writeOwned_ok.mp h
    exact ⟨⟨j, found, owned, fun _ => scheduled⟩, rfl⟩
  | _ =>
    obtain ⟨⟨j, found, owned, -⟩, rfl⟩ := writeOwned_ok.mp h
    exact ⟨⟨j, found, owned, fun h => by obtain ⟨_, _, h⟩ := h; cases h⟩, rfl⟩

theorem Outcome.write_lost {o : Outcome}
    (lost : ∀ j, jobs.find id = some j → ¬ j.owned owner clock) :
    o.write jobs id owner clock = .error (.lostOwnership id) := by
  cases o <;> exact writeOwned_lost lost

/-- An attempt that ended leaves its row without owner and lease, and not running. -/
theorem Outcome.apply_released (o : Outcome) (clock : Instant) (j : QueuedJob) :
    (o.apply clock j).state ≠ .running ∧ (o.apply clock j).claimedBy = none ∧
      (o.apply clock j).leaseExpiresAt = none := by
  cases o with
  | finishSuccess next finishedAt =>
    cases next <;> exact ⟨by simp [Outcome.apply, QueuedJob.finish, QueuedJob.requeue], rfl, rfl⟩
  | retry error runAt => exact ⟨by simp [Outcome.apply, QueuedJob.requeue], rfl, rfl⟩
  | rescheduleAfterFailure error next =>
    exact ⟨by simp [Outcome.apply, QueuedJob.reschedule, QueuedJob.requeue], rfl, rfl⟩
  | fail error => exact ⟨by simp [Outcome.apply, QueuedJob.deadLetter], rfl, rfl⟩

/-- So does a lease that is finalized. -/
theorem finalize_released (cron : Cron) (wall clock : Instant) (j : QueuedJob) :
    (j.finalize cron wall clock).state ≠ .running ∧
      (j.finalize cron wall clock).claimedBy = none ∧
      (j.finalize cron wall clock).leaseExpiresAt = none := by
  unfold QueuedJob.finalize
  split
  · exact ⟨by simp [QueuedJob.reschedule, QueuedJob.requeue], rfl, rfl⟩
  · exact ⟨by simp [QueuedJob.deadLetter], rfl, rfl⟩

/-- A row goes in, or nothing happens. -/
theorem insertUnlessKeyed_ok {row : QueuedJob} {inserted : Bool}
    (h : insertUnlessKeyed jobs row = .ok (jobs', inserted)) :
    (jobs' = jobs ∧ inserted = false ∧ ∃ j ∈ jobs, j.keyed row.idempotencyKey = true) ∨
      inserted = true ∧ jobs.insert row = some jobs' ∧
        ∀ j ∈ jobs, j.keyed row.idempotencyKey = false := by
  unfold insertUnlessKeyed at h
  split at h
  · rename_i taken
    cases h
    exact .inl ⟨rfl, rfl, List.any_eq_true.mp taken⟩
  · rename_i free
    simp only [bind_ok, orFail_ok, pure_ok] at h
    obtain ⟨_, inserted, h⟩ := h
    cases h
    exact .inr ⟨rfl, inserted, fun j hj => Bool.eq_false_iff.mpr fun taken =>
      free (List.any_eq_true.mpr ⟨j, hj, taken⟩)⟩

theorem insertUnlessKeyed_taken {row : QueuedJob}
    (taken : ∃ j ∈ jobs, j.keyed row.idempotencyKey = true) :
    insertUnlessKeyed jobs row = .ok (jobs, false) := if_pos (List.any_eq_true.mpr taken)

theorem insertUnlessKeyed_free {row : QueuedJob}
    (free : ∀ j ∈ jobs, ¬ j.keyed row.idempotencyKey = true) (newId : jobs.find row.id = none) :
    ∃ jobs', insertUnlessKeyed jobs row = .ok (jobs', true) := by
  obtain ⟨jobs', inserted⟩ := Table.insert_isSome.mpr newId
  refine ⟨jobs', ?_⟩
  unfold insertUnlessKeyed
  rw [if_neg, inserted]
  · rfl
  · intro taken
    obtain ⟨j, hj, keyed⟩ := List.any_eq_true.mp taken
    exact free j hj keyed

/-- What a repair makes of the row `j` that it found. -/
inductive Repairs (jobs : JobTable) (a : Registration) (j : QueuedJob) :
    JobTable → RegistrationOutcome → Prop where
  | running : j.state = .running → j.schedule = some a.schedule →
      Repairs jobs a j jobs .runningPreserved
  | healthy : j.state = .pending → j.schedule = some a.schedule →
      Repairs jobs a j jobs .healthyPreserved
  | scheduled : j.state = .pending → j.schedule = none →
      Repairs jobs a j (jobs.update (fun r => decide (r.id = j.id)) (QueuedJob.adopt a) fun _ => rfl)
        .pendingScheduleRepaired
  | revived (runAt : Instant) (outcome : RegistrationOutcome) : isTerminal j.state →
      Repairs jobs a j (jobs.update (fun r => decide (r.id = j.id))
        (QueuedJob.revive runAt (some a.schedule) a.maxAttempts) fun _ => rfl) outcome

theorem repair_ok {cron : Cron} {a : Registration} {outcome : RegistrationOutcome}
    (h : repair cron jobs a = .ok (jobs', outcome)) :
    0 < a.maxAttempts ∧ ∃ j ∈ jobs, j.keyed (some a.key) = true ∧ j.kind = a.kind ∧
      j.payload = a.payload ∧ Repairs jobs a j jobs' outcome := by
  simp only [repair, Registration.next, bind_ok, orFail_ok, ensure_ok] at h
  obtain ⟨next, ⟨_, valid, -⟩, j, found, _, same, _, scheduled, h⟩ := h
  refine ⟨valid.2.2, j, List.mem_of_find?_eq_some found, List.find?_some found, same.1, same.2, ?_⟩
  cases state : j.state <;> cases schedule : j.schedule <;>
    simp only [state, schedule, pure_ok, reduceCtorEq] at h
  case pending.none =>
    cases h
    exact .scheduled state schedule
  case succeeded.none =>
    cases h
    exact .revived _ _ (.inl state)
  case failed.none =>
    cases h
    exact .revived _ _ (.inr state)
  all_goals
    obtain rfl := scheduled _ schedule
    cases h
  · exact .healthy state schedule
  · exact .running state schedule
  · exact .revived _ _ (.inl state)
  · exact .revived _ _ (.inr state)

theorem mem_firstDue {batch : ℕ} {locked : ℕ → Bool} {p : QueuedJob → Bool} {j : QueuedJob}
    (h : j ∈ firstDue jobs batch locked p) : j ∈ jobs ∧ locked j.id = false ∧ p j = true := by
  have h := (List.perm_insertionSort earlier _).mem_iff.mp (List.mem_of_mem_take h)
  simpa [Table.mem_rows] using h

/-- A candidate is a row that is due, and unless it is pending its lease is over. -/
theorem mem_candidates {batch : ℕ} {kinds : Option (List String)} {locked : ℕ → Bool}
    {j : QueuedJob} (h : j ∈ candidates jobs batch kinds locked clock) :
    j ∈ jobs ∧ j.runAt ≤ clock ∧ (j.state = .pending ∨
      j.state = .running ∧ j.expired clock ∧ j.attempts < j.maxAttempts) := by
  have h := (List.perm_insertionSort earlier _).mem_iff.mp (List.mem_of_mem_take h)
  rcases List.mem_append.mp h with h | h
  · obtain ⟨there, -, due⟩ := mem_firstDue h
    simp only [duePending, Bool.and_eq_true, decide_eq_true_eq] at due
    exact ⟨there, due.1.2, .inl due.1.1⟩
  · obtain ⟨there, -, due⟩ := mem_firstDue h
    simp only [dueExpired, Bool.and_eq_true, decide_eq_true_eq] at due
    exact ⟨there, due.1.2.2.2, .inr ⟨due.1.1, due.1.2.1, due.1.2.2.1⟩⟩

theorem mem_exhaustedLeases {kinds : Option (List String)} {locked : ℕ → Bool} {j : QueuedJob}
    (h : j ∈ exhaustedLeases jobs kinds locked clock) :
    j ∈ jobs ∧ j.state = .running ∧ j.expired clock ∧ j.maxAttempts ≤ j.attempts := by
  have h := (List.perm_insertionSort _ _).mem_iff.mp (List.mem_of_mem_take h)
  simp only [List.mem_filter, exhausted, Bool.and_eq_true, decide_eq_true_eq] at h
  exact ⟨h.1, h.2.2.1⟩

/-- A row chosen by its id is one of the chosen. -/
theorem chosen_iff {chosen : List QueuedJob} (among : ∀ j ∈ chosen, j ∈ jobs) {j : QueuedJob}
    (hj : j ∈ jobs) : (chosen.map fun j => j.id).contains j.id = true ↔ j ∈ chosen := by
  rw [List.contains_iff_mem, List.mem_map]
  constructor
  · rintro ⟨i, hi, same⟩
    rwa [← Table.eq_of_key_eq (among i hi) hj same]
  · exact fun h => ⟨j, h, rfl⟩

end Jobs
