import BikesNest.JobLeases

/-! The attempts of a job and the shape of its row, over runs in which outcomes are written by the
worker and the inline dispatcher. -/

namespace JobBudget

open Parking Schema Credentials Outcome Erasure Jobs Runs JobLeases

structure RowSound (j : QueuedJob) : Prop where
  budget : j.attempts ≤ j.maxAttempts
  pending : j.state = .pending →
    j.attempts < j.maxAttempts ∧ j.claimedBy = none ∧ j.leaseExpiresAt = none
  running : j.state = .running → j.claimedBy.isSome = true ∧ j.leaseExpiresAt.isSome = true
  terminal : isTerminal j.state → j.claimedBy = none ∧ j.leaseExpiresAt = none

/-- Not more leases of spent jobs have expired than one sweep takes. -/
def FewExhausted (q : Queue) : Prop := (q.jobs.rows.filter (exhausted none q.now)).length ≤ 100

/-- A row whose lease expired is due again, or the sweep before the next claim of its kind ends the
attempt, unless it finds the row locked. -/
def Recoverable (cron : Cron) (q : Queue) (j : QueuedJob) : Prop :=
  ∀ kinds, ofKinds kinds j = true →
    dueExpired kinds q.now j = true ∨ ∀ locked wall, locked j.id = false →
      (finalizeExhaustedLeases cron q.jobs kinds locked wall q.now).find j.id =
        some (j.finalize cron wall q.now)

structure Budgeted (cron : Cron) (q : Queue) : Prop where
  rows : ∀ j ∈ q.jobs, 1 ≤ j.maxAttempts → RowSound j
  starts : ∀ c ∈ q.claims, 1 ≤ c.job.maxAttempts → c.job.attempts ≤ c.job.maxAttempts
  recoverable : FewExhausted q → ∀ j ∈ q.jobs, 1 ≤ j.maxAttempts → j.state = .running →
    j.expired q.now → Recoverable cron q j

/-- The registration would give a pending one-shot row its schedule. -/
def Registration.repairs (a : Registration) (j : QueuedJob) : Prop :=
  j.keyed (some a.key) = true ∧ j.kind = a.kind ∧ j.payload = a.payload ∧ j.state = .pending ∧
    j.schedule = none

instance (a : Registration) (j : QueuedJob) : Decidable (Registration.repairs a j) :=
  inferInstanceAs (Decidable (_ ∧ _))

/-- Outcomes are those of workers and the dispatcher. -/
def Ordinary (q : Queue) : Event → Prop
  | .outcome _ _ _ => False
  | e => Fresh q e

instance (q : Queue) (e : Event) : Decidable (Ordinary q e) :=
  match e with
  | .outcome _ _ _ => .isFalse id
  | .claim batch owner ttl kinds locked lag =>
    inferInstanceAs (Decidable (Fresh q (.claim batch owner ttl kinds locked lag)))
  | .claimId id owner ttl => inferInstanceAs (Decidable (Fresh q (.claimId id owner ttl)))
  | .elapse _ | .enqueue _ _ _ _ _ _ | .enqueueMail _ _ | .reserve _ _ | .repair _
  | .finalize _ _ _ | .heartbeat _ _ _ | .run _ _ _ _ _ _ _ | .dispatch _ _ _ _ | .gc _ =>
    .isTrue trivial

/-- No registration gives a row that was tried before a budget that is already spent. -/
def Affords (q : Queue) : Event → Prop
  | .repair a => ∀ j ∈ q.jobs, Registration.repairs a j → j.attempts < a.maxAttempts
  | _ => True

instance (q : Queue) (e : Event) : Decidable (Affords q e) :=
  match e with
  | .repair a => inferInstanceAs (Decidable (∀ j ∈ q.jobs.rows, Registration.repairs a j → _))
  | .elapse _ | .enqueue _ _ _ _ _ _ | .enqueueMail _ _ | .reserve _ _ | .claim _ _ _ _ _ _
  | .claimId _ _ _ | .finalize _ _ _ | .heartbeat _ _ _ | .outcome _ _ _ | .run _ _ _ _ _ _ _
  | .dispatch _ _ _ _ | .gc _ => .isTrue trivial

/-- A row as the statements leave it at `now`, whatever its budget. -/
structure Shaped (now : Instant) (j : QueuedJob) : Prop where
  idle : j.state ≠ .running → j.claimedBy = none ∧ j.leaseExpiresAt = none
  running : j.state = .running →
    j.claimedBy.isSome = true ∧ j.leaseExpiresAt.isSome = true ∧ j.runAt ≤ now
  budget : 1 ≤ j.maxAttempts → j.attempts ≤ j.maxAttempts
  fresh : 1 ≤ j.maxAttempts → j.state = .pending → j.attempts < j.maxAttempts

theorem Shaped.sound {now : Instant} {j : QueuedJob} (shaped : Shaped now j)
    (budgeted : 1 ≤ j.maxAttempts) : RowSound j where
  budget := shaped.budget budgeted
  pending pending := ⟨shaped.fresh budgeted pending, shaped.idle (by simp [pending])⟩
  running running := ⟨(shaped.running running).1, (shaped.running running).2.1⟩
  terminal terminal := shaped.idle fun running => by
    rw [running] at terminal
    rcases terminal with h | h <;> cases h

variable {cron : Cron} {q : Queue} {now : Instant} {j : QueuedJob} {id : ℕ} {owner : String}

theorem Shaped.later {later : Instant} (shaped : Shaped now j) (le : now ≤ later) :
    Shaped later j := by
  refine ⟨shaped.idle, fun running => ?_, shaped.budget, shaped.fresh⟩
  obtain ⟨owns, leased, due⟩ := shaped.running running
  exact ⟨owns, leased, due.trans le⟩

def Rows (q : Queue) : Prop := ∀ j ∈ q.jobs, Shaped q.now j

/-- Every row is shaped, and so was every row when it was claimed. -/
structure Sound (q : Queue) : Prop where
  kept : Kept q
  rows : Rows q
  starts : ∀ c ∈ q.claims, 1 ≤ c.job.maxAttempts → c.job.attempts ≤ c.job.maxAttempts

theorem rows_update {p : QueuedJob → Bool} {f : QueuedJob → QueuedJob}
    (hf : ∀ j, (f j).id = j.id) (rows : ∀ j ∈ q.jobs, Shaped now j)
    (changed : ∀ j ∈ q.jobs, p j = true → Shaped now (f j)) :
    ∀ j ∈ q.jobs.update p f hf, Shaped now j := by
  intro j hj
  obtain ⟨i, hi, rfl⟩ := Table.mem_update.mp hj
  by_cases hit : p i = true
  · rw [if_pos hit]
    exact changed i hi hit
  · rw [if_neg hit]
    exact rows i hi

/-! What each kind of statement leaves. -/

theorem shaped_newJob {kind : String} {payload : Json} {runAt : Instant} {schedule : Option Json}
    {maxAttempts : ℤ} {key : Option String} :
    Shaped now (newJob id kind payload runAt schedule maxAttempts key) where
  idle _ := ⟨rfl, rfl⟩
  running h := by cases h
  budget h := by simp only [newJob] at h ⊢; omega
  fresh h _ := by simp only [newJob] at h ⊢; omega

theorem shaped_claim {ttl : ℕ} (due : j.runAt ≤ now)
    (affordable : 1 ≤ j.maxAttempts → j.attempts < j.maxAttempts) :
    Shaped now (j.claim owner ttl now) where
  idle h := absurd rfl h
  running _ := ⟨rfl, rfl, due⟩
  budget h := by
    have := affordable h
    simp only [QueuedJob.claim]
    omega
  fresh _ h := by cases h

/-- An outcome that retries has attempts left. -/
def Affordable (o : Outcome) (j : QueuedJob) : Prop :=
  ∀ error runAt, o = .retry error runAt → j.attempts < j.maxAttempts

theorem shaped_apply {o : Outcome} (clock : Instant) (shaped : Shaped now j)
    (affordable : Affordable o j) : Shaped now (o.apply clock j) := by
  obtain ⟨idle, free, unleased⟩ := o.apply_released clock j
  refine ⟨fun _ => ⟨free, unleased⟩, fun running => absurd running idle, ?_, ?_⟩
  · cases o with
    | finishSuccess next finishedAt =>
      cases next with
      | none => exact shaped.budget
      | some next =>
        intro h
        simp only [Outcome.apply, QueuedJob.finish, QueuedJob.requeue] at h ⊢
        omega
    | rescheduleAfterFailure error next =>
      intro h
      simp only [Outcome.apply, QueuedJob.reschedule, QueuedJob.requeue] at h ⊢
      omega
    | retry | fail => exact shaped.budget
  · cases o with
    | finishSuccess next finishedAt =>
      cases next with
      | none => exact fun _ h => by cases h
      | some next =>
        intro h _
        simp only [Outcome.apply, QueuedJob.finish, QueuedJob.requeue] at h ⊢
        omega
    | rescheduleAfterFailure error next =>
      intro h _
      simp only [Outcome.apply, QueuedJob.reschedule, QueuedJob.requeue] at h ⊢
      omega
    | retry error runAt => exact fun _ _ => affordable error runAt rfl
    | fail => exact fun _ h => by cases h

theorem shaped_finalize {wall clock : Instant} (shaped : Shaped now j) :
    Shaped now (j.finalize cron wall clock) := by
  unfold QueuedJob.finalize
  split
  · exact shaped_apply (o := .rescheduleAfterFailure exhaustedLeaseError _) clock shaped
      fun _ _ h => by cases h
  · exact shaped_apply (o := .fail exhaustedLeaseError) clock shaped fun _ _ h => by cases h

theorem runJob_affordable {registered : Bool} {job : ClaimedJob} {result : HandlerResult}
    {wall : Instant} {base jitter : ℕ} (attempts : job.attempts = j.attempts)
    (maxAttempts : job.maxAttempts = j.maxAttempts) :
    Affordable (runJob cron registered job result wall base jitter) j := by
  have never {e : String} : Affordable (giveUp cron job e wall) j := by
    intro error runAt h
    unfold giveUp at h
    split at h <;> cases h
  unfold runJob
  split
  swap
  · exact fun _ _ h => by cases h
  cases result with
  | ok =>
    dsimp only
    split <;> exact fun _ _ h => by cases h
  | failed e =>
    dsimp only
    split
    · rename_i left
      exact fun _ _ _ => attempts ▸ maxAttempts ▸ left
    · exact never
  | permanent e => exact never

theorem dispatch_affordable {job : ClaimedJob} {result : HandlerResult} {wall : Instant}
    (attempts : job.attempts = j.attempts) (maxAttempts : job.maxAttempts = j.maxAttempts) :
    Affordable (dispatch job result wall) j := by
  cases result with
  | ok => exact fun _ _ h => by cases h
  | permanent e => exact fun _ _ h => by cases h
  | failed e =>
    unfold dispatch
    dsimp only
    split
    · rename_i left
      exact fun _ _ _ => attempts ▸ maxAttempts ▸ left
    · exact fun _ _ h => by cases h

/-! Every step. -/

theorem rows_insert {jobs jobs' : JobTable} {row : QueuedJob} {inserted : Bool}
    (rows : ∀ j ∈ jobs, Shaped now j) (shaped : Shaped now row)
    (h : insertUnlessKeyed jobs row = .ok (jobs', inserted)) : ∀ j ∈ jobs', Shaped now j := by
  rcases insertUnlessKeyed_ok h with ⟨rfl, -, -⟩ | ⟨-, h, -⟩
  · exact rows
  · intro j hj
    rcases (Table.mem_insert h).mp hj with old | rfl
    · exact rows j old
    · exact shaped

theorem rows_stored {α : Type} {t : Except JobRepoError (JobTable × α)}
    (rows : Rows q)
    (stored : ∀ r, t = .ok r → ∀ j ∈ r.1, Shaped q.now j) :
    Rows (q.stored t) := by
  cases t with
  | error e => exact rows
  | ok r => exact stored r rfl

theorem rows_repair {a : Registration} {jobs : JobTable} {outcome : RegistrationOutcome}
    (rows : Rows q)
    (affords : ∀ j ∈ q.jobs, Registration.repairs a j → j.attempts < a.maxAttempts)
    (h : repair cron q.jobs a = .ok (jobs, outcome)) : ∀ j ∈ jobs, Shaped q.now j := by
  obtain ⟨positive, j, hj, keyed, kind, payload, repairs⟩ := repair_ok h
  have hit {i : QueuedJob} (hi : i ∈ q.jobs) (key : decide (i.id = j.id) = true) : i = j :=
    Table.eq_of_key_eq hi hj (of_decide_eq_true key)
  cases repairs with
  | running | healthy => exact rows
  | scheduled state schedule =>
    refine rows_update (f := QueuedJob.adopt a) (fun _ => rfl) rows fun i hi key => ?_
    rw [hit hi key]
    have left := affords j hj ⟨keyed, kind, payload, state, schedule⟩
    exact ⟨(rows j hj).idle, (rows j hj).running, fun _ => left.le, fun _ _ => left⟩
  | revived runAt outcome terminal =>
    refine rows_update (f := QueuedJob.revive runAt (some a.schedule) a.maxAttempts)
      (fun _ => rfl) rows fun i _ _ => ?_
    refine ⟨fun _ => ⟨rfl, rfl⟩, fun h => ?_, fun _ => ?_, fun _ _ => ?_⟩
    · cases h
    · exact positive.le
    · exact positive

theorem rows_persist {o : Outcome} (rows : Rows q)
    (affordable : ∀ j, q.jobs.find id = some j → j.owned owner q.now → Affordable o j) :
    Rows (q.persist id owner o) := by
  unfold Queue.persist
  cases h : o.write q.jobs id owner q.now with
  | error e => exact rows
  | ok jobs =>
    obtain ⟨⟨j, found, owned, -⟩, rfl⟩ := Outcome.write_ok h
    refine rows_update (o.apply_id q.now) rows fun i hi key => ?_
    obtain ⟨hj, same⟩ := Table.find_eq_some.mp found
    obtain rfl : i = j := Table.eq_of_key_eq hi hj ((of_decide_eq_true key).trans same.symm)
    exact shaped_apply q.now (rows i hi) (affordable i found owned)

theorem rows_heartbeat {ttl : ℕ} {g : Claim → Claim} (rows : Rows q) :
    Rows (q.written id owner (heartbeat q.jobs id owner ttl q.now) g) := by
  cases h : heartbeat q.jobs id owner ttl q.now with
  | error e => exact rows
  | ok jobs =>
    obtain ⟨⟨j, found, owned, -⟩, rfl⟩ := writeOwned_ok.mp h
    refine rows_update (f := QueuedJob.extend ttl q.now) (fun _ => rfl) rows fun i hi key => ?_
    obtain ⟨hj, same⟩ := Table.find_eq_some.mp found
    obtain rfl : i = j := Table.eq_of_key_eq hi hj ((of_decide_eq_true key).trans same.symm)
    have shaped := rows i hi
    refine ⟨fun idle => absurd owned.1 idle, fun running => ?_, shaped.budget, shaped.fresh⟩
    exact ⟨(shaped.running running).1, rfl, (shaped.running running).2.2⟩

/-- What a worker writes is decided on the row as it was handed out. -/
theorem rows_ended {ending : ClaimedJob → Outcome} (sound : Sound q)
    (affordable : ∀ job j, job.attempts = j.attempts → job.maxAttempts = j.maxAttempts →
      Affordable (ending job) j) :
    Rows (q.ended id owner ending) := by
  unfold Queue.ended
  split
  swap
  · exact sound.rows
  rename_i c handed
  refine rows_persist sound.rows fun j found owned => ?_
  obtain ⟨ofRow, ofOwner⟩ : c.isOf id owner := by simpa using List.find?_some handed
  obtain ⟨hj, key⟩ := Table.find_eq_some.mp found
  obtain ⟨-, holds⟩ := sound.kept.holds hj owned.1 (List.mem_of_find?_eq_some handed)
    (ofRow.trans key.symm) (owned.2.1.trans (congrArg some ofOwner.symm))
  exact affordable c.job j holds.attempts holds.maxAttempts

theorem rows_granted {p : QueuedJob → Bool} {ttl : ℕ} (rows : Rows q)
    (due : ∀ j ∈ q.jobs, p j = true → j.runAt ≤ q.now ∧
      (1 ≤ j.maxAttempts → j.attempts < j.maxAttempts)) :
    Rows (q.granted ttl (grant q.jobs p owner ttl q.now)) :=
  rows_update (f := QueuedJob.claim owner ttl q.now) (fun _ => rfl) rows fun j hj hit =>
    shaped_claim (due j hj hit).1 (due j hj hit).2

theorem chosen_due {batch lag : ℕ} {kinds : Option (List String)} {locked : ℕ → Bool}
    (rows : Rows q) (hj : j ∈ q.jobs)
    (hit : ((candidates q.jobs batch kinds locked (q.now - lag)).map fun j => j.id).contains j.id =
      true) :
    j.runAt ≤ q.now ∧ (1 ≤ j.maxAttempts → j.attempts < j.maxAttempts) := by
  have chosen := (chosen_iff (fun j h => (mem_candidates h).1) hj).mp hit
  have earlier : q.now - (lag : ℤ) ≤ q.now := by linarith [Int.natCast_nonneg lag]
  obtain ⟨-, due, pending | ⟨-, -, left⟩⟩ := mem_candidates chosen
  · exact ⟨due.trans earlier, fun budgeted => (rows j hj).fresh budgeted pending⟩
  · exact ⟨due.trans earlier, fun _ => left⟩

theorem claimableById_due (hit : claimableById id q.now j = true) :
    j.runAt ≤ q.now ∧ (1 ≤ j.maxAttempts → j.attempts < j.maxAttempts) := by
  simp only [claimableById, decide_eq_true_eq] at hit
  exact ⟨hit.2.2.1, fun _ => hit.2.2.2.1⟩

theorem step_rows {e : Event} (sound : Sound q) (ordinary : Ordinary q e) (affords : Affords q e) :
    Rows (step cron q e) := by
  have rows := sound.rows
  cases e with
  | elapse gap =>
    have passes : q.now ≤ q.now + gap := by linarith [Int.natCast_nonneg gap]
    exact fun j hj => (rows j hj).later passes
  | enqueue id kind payload runAt maxAttempts key =>
    refine rows_stored rows fun r h => ?_
    simp only [enqueue, bind_ok] at h
    obtain ⟨_, -, h⟩ := h
    exact rows_insert rows shaped_newJob h
  | enqueueMail id mail =>
    refine rows_stored rows fun r h => rows_insert rows ?_ h
    refine ⟨fun _ => ⟨rfl, rfl⟩, fun h => ?_, fun h => ?_, fun h _ => ?_⟩
    · cases h
    all_goals
      simp only [newJob] at h ⊢
      omega
  | reserve id a =>
    refine rows_stored rows fun r h => ?_
    simp only [reserve, bind_ok] at h
    obtain ⟨_, -, _, -, h⟩ := h
    exact rows_insert rows shaped_newJob h
  | repair a => exact rows_stored rows fun r h => rows_repair rows affords h
  | finalize kinds locked wall =>
    exact rows_update (finalize_id cron wall q.now) rows fun j hj _ => shaped_finalize (rows j hj)
  | claim batch owner ttl kinds locked lag =>
    exact rows_granted rows fun j hj hit => chosen_due rows hj hit
  | claimId id owner ttl => exact rows_granted rows fun j _ hit => claimableById_due hit
  | heartbeat id owner ttl => exact rows_heartbeat rows
  | outcome id owner o => exact absurd ordinary not_false
  | run id owner registered result wall base jitter =>
    exact rows_ended sound fun job j attempts maxAttempts => runJob_affordable attempts maxAttempts
  | dispatch id owner result wall =>
    exact rows_ended sound fun job j attempts maxAttempts => dispatch_affordable attempts maxAttempts
  | gc cutoff => exact fun j hj => rows j (Table.mem_delete.mp hj).1

def Starts (claims : List Claim) : Prop :=
  ∀ c ∈ claims, 1 ≤ c.job.maxAttempts → c.job.attempts ≤ c.job.maxAttempts

theorem starts_written {t : Except JobRepoError JobTable} {g : Claim → Claim}
    (starts : Starts q.claims) (keeps : ∀ c, (g c).job = c.job) :
    Starts (q.written id owner t g).claims := by
  cases t with
  | error e => exact starts
  | ok jobs =>
    intro c hc
    obtain ⟨d, hd, rfl⟩ := List.mem_map.mp hc
    have same : (if d.isOf id owner then g d else d).job = d.job := amend_job keeps d
    rw [same]
    exact starts d hd

theorem starts_ended {ending : ClaimedJob → Outcome} (starts : Starts q.claims) :
    Starts (q.ended id owner ending).claims := by
  unfold Queue.ended
  split
  · exact starts_written starts fun _ => rfl
  · exact starts

theorem starts_granted {p : QueuedJob → Bool} {ttl : ℕ} (starts : Starts q.claims)
    (left : ∀ j ∈ q.jobs, p j = true → 1 ≤ j.maxAttempts → j.attempts < j.maxAttempts) :
    Starts (q.granted ttl (grant q.jobs p owner ttl q.now)).claims := by
  intro c hc budgeted
  simp only [Queue.granted, grant, List.map_map] at hc
  rcases List.mem_append.mp hc with old | new
  · exact starts c old budgeted
  · obtain ⟨j, hj, rfl⟩ := List.mem_map.mp new
    obtain ⟨hj, hit⟩ := List.mem_filter.mp hj
    have := left j hj hit budgeted
    simp only [Function.comp_apply, QueuedJob.claimed]
    omega

theorem starts_stored {α : Type} {t : Except JobRepoError (JobTable × α)}
    (starts : Starts q.claims) : Starts (q.stored t).claims := by
  cases t <;> exact starts

theorem step_starts {e : Event} (sound : Sound q) : Starts (step cron q e).claims := by
  have starts : Starts q.claims := sound.starts
  cases e with
  | elapse | finalize | gc => exact starts
  | enqueue | enqueueMail | reserve | repair => exact starts_stored starts
  | claim batch owner ttl kinds locked lag =>
    exact starts_granted starts fun j hj hit => (chosen_due sound.rows hj hit).2
  | claimId id owner ttl => exact starts_granted starts fun j _ hit => (claimableById_due hit).2
  | heartbeat id owner ttl => exact starts_written starts fun _ => rfl
  | outcome id owner o => exact starts_written starts fun _ => rfl
  | run | dispatch => exact starts_ended starts

theorem step_sound {e : Event} (sound : Sound q) (permitted : Ordinary q e ∧ Affords q e) :
    Sound (step cron q e) where
  kept := step_kept sound.kept (by
    obtain ⟨ordinary, -⟩ := permitted
    cases e <;> first | exact ordinary | exact trivial)
  rows := step_rows sound permitted.1 permitted.2
  starts := step_starts sound

theorem start_sound (now : Instant) : Sound (start now) where
  kept := start_kept now
  rows j hj := absurd hj (Table.not_mem_empty j)
  starts := by simp [start]

/-! What becomes of a lease that is over. -/

/-- A sweep that takes every spent job takes this one. -/
theorem swept {kinds : Option (List String)} {locked : ℕ → Bool} (few : FewExhausted q)
    (hj : j ∈ q.jobs) (spent : exhausted kinds q.now j = true) (free : locked j.id = false) :
    j ∈ exhaustedLeases q.jobs kinds locked q.now := by
  have fits :
      (q.jobs.rows.filter fun j => !locked j.id && exhausted kinds q.now j).length ≤ 100 := by
    refine le_trans (List.Sublist.length_le (List.monotone_filter_right _ fun i h => ?_)) few
    simp only [exhausted, ofKinds, Bool.and_eq_true] at h ⊢
    exact ⟨h.2.1, rfl⟩
  unfold exhaustedLeases
  rw [List.take_of_length_le (by rwa [List.length_insertionSort]), List.mem_insertionSort]
  exact List.mem_filter.mpr ⟨hj, by rw [free, spent]; rfl⟩

theorem recoverable_of_rows (rows : Rows q) (few : FewExhausted q) (hj : j ∈ q.jobs)
    (running : j.state = .running) (expired : j.expired q.now) : Recoverable cron q j := by
  intro kinds ofKind
  by_cases left : j.attempts < j.maxAttempts
  · refine .inl ?_
    simp [dueExpired, ofKind, running, expired, left, ((rows j hj).running running).2.2]
  · refine .inr fun locked wall free => ?_
    have spent : exhausted kinds q.now j = true := by
      simp [exhausted, ofKind, running, expired, not_lt.mp left]
    have hit := (chosen_iff (fun j h => (mem_exhaustedLeases h).1) hj).mpr (swept few hj spent free)
    refine (Table.find_update _ _ _ (finalize_id cron wall q.now) _).trans ?_
    rw [Table.find_of_mem hj, Option.map_some, if_pos hit]

theorem budgeted_of_sound (sound : Sound q) : Budgeted cron q where
  rows j hj budgeted := (sound.rows j hj).sound budgeted
  starts := sound.starts
  recoverable few _ hj _ := recoverable_of_rows sound.rows few hj

def hourly (maxAttempts : ℤ) : Registration :=
  ⟨"retention", .obj [], .obj [("every_seconds", .num (.int 3600))], 0, maxAttempts, "retention"⟩

/-- A handler that fails, a minute after what came before. -/
def attempt (owner : String) (wall : Instant) : List Event :=
  [.elapse 60000000, .claim 1 owner 1000 none (fun _ => false) 0,
    .run 1 owner true (.failed "timeout") wall 5000 0]

/-- A one-shot row that failed twice is registered with the budget `maxAttempts`. -/
def adopted (maxAttempts : ℤ) : List Event :=
  .enqueue 1 "retention" (.obj []) 0 none (some "retention") ::
    (attempt "w1" 60000000 ++ attempt "w2" 120000000 ++
      .repair (hourly maxAttempts) :: attempt "w3" 180000000)

end JobBudget
