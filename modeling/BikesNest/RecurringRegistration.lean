import BikesNest.JobLeases

/-! Calls of `register_recurring`. A call has one statement that takes the key, when it is free, and
otherwise a second one that locks the row and repairs it; between them anything else may run. -/

namespace RecurringRegistration

open Parking Schema Credentials Outcome Erasure Jobs Runs JobLeases

/-- What a call saw when its last statement ran, what it left, and what it returned. -/
structure Call where
  seen : Queue
  left : Queue
  result : Except JobRepoError RegistrationOutcome

/-- `register_recurring`, where `between` runs before the row is locked. -/
def register (cron : Cron) (id : ℕ) (a : Registration) (between : List Event) (q : Queue) : Call :=
  match reserve cron q.jobs id a with
  | .error e => ⟨q, q, .error e⟩
  | .ok (jobs, true) => ⟨q, { q with jobs := jobs }, .ok .inserted⟩
  | .ok (_, false) =>
    let q := run (step cron) q between
    match repair cron q.jobs a with
    | .error e => ⟨q, q, .error e⟩
    | .ok (jobs, outcome) => ⟨q, { q with jobs := jobs }, .ok outcome⟩

/-- The checks before the key is taken. -/
def Accepted (cron : Cron) (a : Registration) : Prop :=
  (∃ next, a.next cron = .ok next) ∧ textOk a.kind ∧ a.payload.storable ∧ a.schedule.storable ∧
    textOk a.key

def AtMostOne (key : String) (jobs : JobTable) : Prop :=
  ∀ i ∈ jobs, ∀ j ∈ jobs, i.keyed (some key) = true → j.keyed (some key) = true → i = j

def Present (key : String) (jobs : JobTable) : Prop := ∃ j ∈ jobs, j.keyed (some key) = true

def ExactlyOne (key : String) (jobs : JobTable) : Prop := Present key jobs ∧ AtMostOne key jobs

/-- The row is there, waits or runs, and has the schedule of the registration. -/
structure Ready (a : Registration) (jobs : JobTable) : Prop where
  one : ExactlyOne a.key jobs
  live : ∀ j ∈ jobs, j.keyed (some a.key) = true → j.state = .pending ∨ j.state = .running
  schedule : ∀ j ∈ jobs, j.keyed (some a.key) = true → j.schedule = some a.schedule

/-- Rows are not collected. -/
def Retains : Event → Prop
  | .gc _ => False
  | _ => True

instance : DecidablePred Retains := fun e =>
  match e with
  | .gc _ => .isFalse id
  | .elapse _ | .enqueue _ _ _ _ _ _ | .enqueueMail _ _ | .reserve _ _ | .repair _
  | .finalize _ _ _ | .claim _ _ _ _ _ _ | .claimId _ _ _ | .heartbeat _ _ _ | .outcome _ _ _
  | .run _ _ _ _ _ _ _ | .dispatch _ _ _ _ => .isTrue trivial

variable {cron : Cron} {a : Registration} {q : Queue} {jobs jobs' : JobTable} {e : Event}
  {j : QueuedJob} {id : ℕ} {key : String}

/-! The rows of a key. -/

/-- No second row gets the key, and a row that has it keeps it. -/
structure Keeps (key : String) (jobs jobs' : JobTable) : Prop where
  unique : AtMostOne key jobs → AtMostOne key jobs'
  present : Present key jobs → Present key jobs'

theorem Keeps.refl : Keeps key jobs jobs := ⟨id, id⟩

theorem Keeps.exactlyOne (keeps : Keeps key jobs jobs') (one : ExactlyOne key jobs) :
    ExactlyOne key jobs' := ⟨keeps.present one.1, keeps.unique one.2⟩

theorem keyed_congr {i : QueuedJob} (same : i.idempotencyKey = j.idempotencyKey) :
    i.keyed (some key) = j.keyed (some key) := by
  simp only [QueuedJob.keyed, same]

theorem keeps_update {p : QueuedJob → Bool} {f : QueuedJob → QueuedJob}
    (hf : ∀ j, (f j).id = j.id) (hk : ∀ j, (f j).idempotencyKey = j.idempotencyKey) :
    Keeps key jobs (jobs.update p f hf) := by
  have keyed (i : QueuedJob) : (if p i then f i else i).keyed (some key) = i.keyed (some key) := by
    refine keyed_congr ?_
    split
    · exact hk i
    · rfl
  constructor
  · intro unique i' hi' j' hj' keyedI keyedJ
    obtain ⟨i, hi, rfl⟩ := Table.mem_update.mp hi'
    obtain ⟨j, hj, rfl⟩ := Table.mem_update.mp hj'
    rw [keyed] at keyedI keyedJ
    rw [unique i hi j hj keyedI keyedJ]
  · rintro ⟨j, hj, keyedJ⟩
    exact ⟨_, Table.mem_update.mpr ⟨j, hj, rfl⟩, (keyed j).trans keyedJ⟩

theorem keeps_insert {row : QueuedJob} {r : JobTable × Bool}
    (h : insertUnlessKeyed jobs row = .ok r) : Keeps key jobs r.1 := by
  obtain ⟨jobs', free⟩ := r
  rcases insertUnlessKeyed_ok h with ⟨rfl, -, -⟩ | ⟨-, inserted, free⟩
  · exact Keeps.refl
  constructor
  · have apart {i : QueuedJob} (hi : i ∈ jobs) (keyedI : i.keyed (some key) = true)
        (keyedRow : row.keyed (some key) = true) : False := by
      have taken := free i hi
      simp only [QueuedJob.keyed, decide_eq_true_eq] at keyedI keyedRow taken
      rw [keyedRow.2, keyedI.2] at taken
      simp at taken
    intro unique i hi j hj keyedI keyedJ
    rcases (Table.mem_insert inserted).mp hi with oldI | rfl <;>
      rcases (Table.mem_insert inserted).mp hj with oldJ | rfl
    · exact unique i oldI j oldJ keyedI keyedJ
    · exact (apart oldI keyedI keyedJ).elim
    · exact (apart oldJ keyedJ keyedI).elim
    · rfl
  · rintro ⟨j, hj, keyed⟩
    exact ⟨j, (Table.mem_insert inserted).mpr (.inl hj), keyed⟩

theorem keeps_stored {α : Type} {t : Except JobRepoError (JobTable × α)}
    (stored : ∀ r, t = .ok r → Keeps key q.jobs r.1) : Keeps key q.jobs (q.stored t).jobs := by
  cases t with
  | error _ => exact Keeps.refl
  | ok r => exact stored r rfl

theorem keeps_repair {r : JobTable × RegistrationOutcome} (h : repair cron jobs a = .ok r) :
    Keeps key jobs r.1 := by
  obtain ⟨jobs', outcome⟩ := r
  obtain ⟨-, j, -, -, -, -, repairs⟩ := repair_ok h
  cases repairs with
  | running | healthy => exact Keeps.refl
  | scheduled => exact keeps_update (f := QueuedJob.adopt a) (fun _ => rfl) fun _ => rfl
  | revived runAt =>
    exact keeps_update (f := QueuedJob.revive runAt (some a.schedule) a.maxAttempts) (fun _ => rfl)
      fun _ => rfl

theorem keeps_written {owner : String} {t : Except JobRepoError JobTable} {g : Claim → Claim}
    (written : ∀ jobs, t = .ok jobs → Keeps key q.jobs jobs) :
    Keeps key q.jobs (q.written id owner t g).jobs := by
  cases t with
  | error _ => exact Keeps.refl
  | ok jobs => exact written jobs rfl

theorem apply_key (o : Jobs.Outcome) (clock : Instant) (j : QueuedJob) :
    (o.apply clock j).idempotencyKey = j.idempotencyKey := by
  cases o with
  | finishSuccess next => cases next <;> rfl
  | _ => rfl

theorem finalize_key (wall clock : Instant) (j : QueuedJob) :
    (j.finalize cron wall clock).idempotencyKey = j.idempotencyKey := by
  unfold QueuedJob.finalize
  split <;> rfl

theorem keeps_persist {owner : String} {o : Jobs.Outcome} :
    Keeps key q.jobs (q.persist id owner o).jobs := by
  refine keeps_written fun jobs h => ?_
  obtain ⟨-, rfl⟩ := Outcome.write_ok h
  exact keeps_update _ (apply_key o q.now)

theorem keeps_ended {owner : String} {ending : ClaimedJob → Jobs.Outcome} :
    Keeps key q.jobs (q.ended id owner ending).jobs := by
  unfold Queue.ended
  split
  · exact keeps_persist
  · exact Keeps.refl

theorem step_keeps (retains : Retains e) : Keeps key q.jobs (step cron q e).jobs := by
  cases e with
  | elapse gap => exact Keeps.refl
  | enqueue id kind payload runAt maxAttempts key =>
    refine keeps_stored fun r h => ?_
    simp only [enqueue, bind_ok] at h
    obtain ⟨_, -, h⟩ := h
    exact keeps_insert h
  | enqueueMail id mail => exact keeps_stored fun r h => keeps_insert h
  | reserve id a =>
    refine keeps_stored fun r h => ?_
    simp only [reserve, bind_ok] at h
    obtain ⟨_, -, _, -, h⟩ := h
    exact keeps_insert h
  | repair a => exact keeps_stored fun r h => keeps_repair h
  | finalize kinds locked wall => exact keeps_update (finalize_id cron wall q.now) (finalize_key wall q.now)
  | claim batch owner ttl kinds locked lag =>
    exact keeps_update (f := QueuedJob.claim owner ttl q.now) (fun _ => rfl) fun _ => rfl
  | claimId id owner ttl =>
    exact keeps_update (f := QueuedJob.claim owner ttl q.now) (fun _ => rfl) fun _ => rfl
  | heartbeat id owner ttl =>
    refine keeps_written fun jobs h => ?_
    obtain ⟨-, rfl⟩ := writeOwned_ok.mp h
    exact keeps_update _ fun _ => rfl
  | outcome id owner o => exact keeps_persist
  | run | dispatch => exact keeps_ended
  | gc cutoff => exact absurd retains not_false

theorem step_unique (unique : AtMostOne key q.jobs) : AtMostOne key (step cron q e).jobs := by
  by_cases retains : Retains e
  · exact (step_keeps retains).unique unique
  · cases e with
    | gc cutoff =>
      exact fun i hi j hj => unique i (Table.mem_delete.mp hi).1 j (Table.mem_delete.mp hj).1
    | _ => exact absurd trivial retains

theorem run_unique (events : List Event) (unique : AtMostOne key q.jobs) :
    AtMostOne key (run (step cron) q events).jobs :=
  run_invariant (I := fun q => AtMostOne key q.jobs) (fun _ _ unique _ => step_unique unique) unique
    (along_true q events)

theorem run_keeps {events : List Event} (retains : ∀ e ∈ events, Retains e) :
    Keeps key q.jobs (run (step cron) q events).jobs := by
  induction events generalizing q with
  | nil => exact Keeps.refl
  | cons e events ih =>
    have first : Keeps key q.jobs (step cron q e).jobs := step_keeps (retains e List.mem_cons_self)
    have rest : Keeps key (step cron q e).jobs (run (step cron) (step cron q e) events).jobs :=
      ih fun e h => retains e (List.mem_cons_of_mem _ h)
    exact ⟨fun unique => rest.unique (first.unique unique),
      fun present => rest.present (first.present present)⟩

/-! One call. -/

theorem reserve_ok {r : JobTable × Bool} : reserve cron jobs id a = .ok r ↔
    Accepted cron a ∧ insertUnlessKeyed jobs (newJob id a.kind a.payload a.runAt (some a.schedule)
      a.maxAttempts (some a.key)) = .ok r := by
  simp only [reserve, bind_ok, ensure_ok, Accepted]
  constructor
  · rintro ⟨next, h, -, accepted, inserted⟩
    exact ⟨⟨⟨next, h⟩, accepted⟩, inserted⟩
  · rintro ⟨⟨⟨next, h⟩, accepted⟩, inserted⟩
    exact ⟨next, h, (), accepted, inserted⟩

/-- A key that is taken is left alone. -/
theorem reserve_taken {free : Bool} (present : Present a.key jobs)
    (h : reserve cron jobs id a = .ok (jobs', free)) : jobs' = jobs ∧ free = false := by
  obtain ⟨-, h⟩ := reserve_ok.mp h
  rcases insertUnlessKeyed_ok h with ⟨same, taken, -⟩ | ⟨-, -, free⟩
  · exact ⟨same, taken⟩
  · obtain ⟨j, hj, keyed⟩ := present
    exact absurd keyed (Bool.eq_false_iff.mp (free j hj))

theorem Ready.of_row (unique : AtMostOne a.key jobs) (hj : j ∈ jobs)
    (keyed : j.keyed (some a.key) = true) (live : j.state = .pending ∨ j.state = .running)
    (schedule : j.schedule = some a.schedule) : Ready a jobs where
  one := ⟨⟨j, hj, keyed⟩, unique⟩
  live i hi keyedI := by rwa [unique i hi j hj keyedI keyed]
  schedule i hi keyedI := by rwa [unique i hi j hj keyedI keyed]

/-- What a repair leaves is ready. -/
theorem repair_ready {outcome : RegistrationOutcome} (unique : AtMostOne a.key jobs)
    (h : repair cron jobs a = .ok (jobs', outcome)) : Ready a jobs' := by
  have unique' : AtMostOne a.key jobs' := (keeps_repair h).unique unique
  obtain ⟨-, j, hj, keyed, -, -, repairs⟩ := repair_ok h
  cases repairs with
  | running state schedule => exact .of_row unique' hj keyed (.inr state) schedule
  | healthy state schedule => exact .of_row unique' hj keyed (.inl state) schedule
  | scheduled state =>
    have there : j.adopt a ∈ jobs.update (fun r => decide (r.id = j.id)) (QueuedJob.adopt a)
        fun _ => rfl := Table.mem_update.mpr ⟨j, hj, if_pos (decide_eq_true rfl)⟩
    exact .of_row unique' there keyed (.inl state) rfl
  | revived runAt =>
    have there : j.revive runAt (some a.schedule) a.maxAttempts ∈
        jobs.update (fun r => decide (r.id = j.id))
          (QueuedJob.revive runAt (some a.schedule) a.maxAttempts) fun _ => rfl :=
      Table.mem_update.mpr ⟨j, hj, if_pos (decide_eq_true rfl)⟩
    exact .of_row unique' there keyed (.inl rfl) rfl

/-- A repair leaves running rows as they are. -/
theorem repair_running {outcome : RegistrationOutcome} {i : QueuedJob}
    (h : repair cron jobs a = .ok (jobs', outcome)) (hi : i ∈ jobs) (running : i.state = .running) :
    i ∈ jobs' := by
  obtain ⟨-, j, hj, -, -, -, repairs⟩ := repair_ok h
  have other (idle : j.state ≠ .running) : ¬ decide (i.id = j.id) = true := fun key => by
    rw [← Table.eq_of_key_eq hi hj (of_decide_eq_true key)] at idle
    exact idle running
  cases repairs with
  | running | healthy => exact hi
  | scheduled state =>
    exact Table.mem_update.mpr ⟨i, hi, if_neg (other (by rw [state]; decide))⟩
  | revived _ _ terminal =>
    refine Table.mem_update.mpr ⟨i, hi, if_neg (other fun state => ?_)⟩
    rw [state] at terminal
    exact absurd terminal (by decide)

theorem find_keyed (unique : AtMostOne key jobs) (hj : j ∈ jobs)
    (keyed : j.keyed (some key) = true) :
    jobs.rows.find? (QueuedJob.keyed (some key)) = some j := by
  cases found : jobs.rows.find? (QueuedJob.keyed (some key)) with
  | none => exact absurd keyed (List.find?_eq_none.mp found j hj)
  | some i =>
    have hi : i ∈ jobs := List.mem_of_find?_eq_some found
    rw [unique i hi j hj (List.find?_some found) keyed]

/-- A row that was refused is refused again. -/
theorem repair_refused {e : JobRepoError}
    (found : jobs.rows.find? (QueuedJob.keyed (some a.key)) = some j)
    (found' : jobs'.rows.find? (QueuedJob.keyed (some a.key)) = some j)
    (h : repair cron jobs a = .error e) : repair cron jobs' a = .error e := by
  unfold repair at h ⊢
  rw [found] at h
  rw [found']
  cases next : a.next cron with
  | error e' =>
    rw [next] at h
    exact h
  | ok next' =>
    rw [next] at h
    simp only [ok_bind, orFail] at h ⊢
    by_cases same : j.kind = a.kind ∧ j.payload = a.payload
    swap
    · rw [ensure_not same, error_bind] at h ⊢
      exact h
    rw [ensure_of same, ok_bind] at h ⊢
    by_cases schedule : ∀ s ∈ j.schedule, s = a.schedule
    swap
    · rw [ensure_not schedule, error_bind] at h ⊢
      exact h
    rw [ensure_of schedule, ok_bind] at h ⊢
    -- only a running row without schedule is refused from here on
    cases state : j.state <;> cases scheduled : j.schedule <;> simp only [state, scheduled] at h ⊢
    case running.none => exact h
    all_goals cases h

theorem reserve_of_present (accepted : Accepted cron a) (present : Present a.key jobs) :
    reserve cron jobs id a = .ok (jobs, false) :=
  reserve_ok.mpr ⟨accepted, insertUnlessKeyed_taken present⟩

theorem reserve_of_absent (accepted : Accepted cron a) (absent : ¬ Present a.key jobs)
    (newId : jobs.find id = none) : ∃ jobs', reserve cron jobs id a = .ok (jobs', true) := by
  have free : ∀ j ∈ jobs, ¬ j.keyed (some a.key) = true := fun j hj keyed => absent ⟨j, hj, keyed⟩
  have inserted : ∃ jobs', insertUnlessKeyed jobs (newJob id a.kind a.payload a.runAt
      (some a.schedule) a.maxAttempts (some a.key)) = .ok (jobs', true) :=
    insertUnlessKeyed_free free newId
  obtain ⟨jobs', inserted⟩ := inserted
  exact ⟨jobs', reserve_ok.mpr ⟨accepted, inserted⟩⟩

/-- How a call can end. -/
inductive Called (cron : Cron) (id : ℕ) (a : Registration) (between : List Event) (q : Queue) :
    Call → Prop where
  | refused (e : JobRepoError) : reserve cron q.jobs id a = .error e →
      Called cron id a between q ⟨q, q, .error e⟩
  | inserted (jobs : JobTable) : reserve cron q.jobs id a = .ok (jobs, true) →
      Called cron id a between q ⟨q, { q with jobs := jobs }, .ok .inserted⟩
  | denied (e : JobRepoError) : Accepted cron a → Present a.key q.jobs →
      repair cron (run (step cron) q between).jobs a = .error e →
      Called cron id a between q ⟨run (step cron) q between, run (step cron) q between, .error e⟩
  | repaired (jobs : JobTable) (outcome : RegistrationOutcome) : Accepted cron a →
      Present a.key q.jobs →
      repair cron (run (step cron) q between).jobs a = .ok (jobs, outcome) →
      Called cron id a between q
        ⟨run (step cron) q between, { run (step cron) q between with jobs := jobs }, .ok outcome⟩

theorem register_called (cron : Cron) (id : ℕ) (a : Registration) (between : List Event)
    (q : Queue) : Called cron id a between q (register cron id a between q) := by
  unfold register
  cases reserved : reserve cron q.jobs id a with
  | error e => exact .refused e reserved
  | ok r =>
    obtain ⟨jobs, free⟩ := r
    cases free with
    | true => exact .inserted jobs reserved
    | false =>
      obtain ⟨accepted, h⟩ := reserve_ok.mp reserved
      have present : Present a.key q.jobs := by
        rcases insertUnlessKeyed_ok h with ⟨-, -, present⟩ | ⟨free, -⟩
        · exact present
        · cases free
      dsimp only
      split
      · rename_i e h
        exact .denied e accepted present h
      · rename_i jobs outcome h
        exact .repaired jobs outcome accepted present h

/-- What a call that is registered again may rely on. -/
structure Converges (cron : Cron) (a : Registration) (call : Call) : Prop where
  ready : ∀ outcome, call.result = .ok outcome → Ready a call.left.jobs
  running : ∀ j ∈ call.seen.jobs, j.state = .running → j ∈ call.left.jobs
  refused : ∀ e, call.result = .error e → call.left = call.seen
  again : ∀ j ∈ call.left.jobs, j.keyed (some a.key) = true → ∀ id later between,
    j ∈ (run (step cron) call.left later).jobs →
    j ∈ (run (step cron) call.left (later ++ between)).jobs →
    (register cron id a between (run (step cron) call.left later)).left =
      (register cron id a between (run (step cron) call.left later)).seen

theorem reserve_unique {free : Bool} (unique : AtMostOne key jobs)
    (h : reserve cron jobs id a = .ok (jobs', free)) : AtMostOne key jobs' :=
  (keeps_insert (reserve_ok.mp h).2).unique unique

theorem Called.unique {between : List Event} {call : Call} (unique : AtMostOne a.key q.jobs)
    (called : Called cron id a between q call) : AtMostOne a.key call.left.jobs := by
  cases called with
  | refused => exact unique
  | inserted jobs reserved => exact reserve_unique unique reserved
  | denied => exact run_unique between unique
  | repaired jobs outcome _ _ h => exact (keeps_repair h).unique (run_unique between unique)

theorem Called.ready {between : List Event} {call : Call} {outcome : RegistrationOutcome}
    (unique : AtMostOne a.key q.jobs) (called : Called cron id a between q call)
    (ok : call.result = .ok outcome) : Ready a call.left.jobs := by
  cases called with
  | refused | denied => cases ok
  | inserted jobs reserved =>
    rcases insertUnlessKeyed_ok (reserve_ok.mp reserved).2 with ⟨-, free, -⟩ | ⟨-, inserted, -⟩
    · cases free
    · have there := (Table.mem_insert inserted).mpr (.inr rfl)
      exact .of_row (reserve_unique unique reserved) there (decide_eq_true ⟨rfl, rfl⟩) (.inl rfl) rfl
  | repaired jobs outcome _ _ h => exact repair_ready (run_unique between unique) h

/-- A row that is ready, or was refused, is not repaired. -/
theorem Called.stable {between : List Event} {call : Call} {jobs' : JobTable}
    {outcome : RegistrationOutcome} (unique : AtMostOne a.key q.jobs)
    (called : Called cron id a between q call) (hj : j ∈ call.left.jobs)
    (keyed : j.keyed (some a.key) = true) (accepted : Accepted cron a)
    (unique' : AtMostOne a.key jobs) (there : j ∈ jobs)
    (h : repair cron jobs a = .ok (jobs', outcome)) : jobs' = jobs := by
  cases result : call.result with
  | ok o =>
    have ready := called.ready unique result
    obtain ⟨-, i, hi, keyedI, -, -, repairs⟩ := repair_ok h
    obtain rfl := unique' i hi j there keyedI keyed
    cases repairs with
    | running | healthy => rfl
    | scheduled state schedule =>
      rw [ready.schedule i hj keyed] at schedule
      cases schedule
    | revived _ _ terminal =>
      rcases ready.live i hj keyed with state | state <;>
        exact absurd terminal (by rw [state]; decide)
  | error e =>
    cases called with
    | refused e' reserved =>
      rw [reserve_of_present accepted ⟨j, hj, keyed⟩] at reserved
      cases reserved
    | denied e' _ _ refused =>
      have found := find_keyed (run_unique between unique) hj keyed
      rw [repair_refused found (find_keyed unique' there keyed) refused] at h
      cases h
    | inserted | repaired => cases result

def hourly : Registration :=
  ⟨"retention", .obj [], .obj [("every_seconds", .num (.int 3600))], 0, 5, "retention"⟩

/-- A job that was enqueued under the key, to run once. -/
def enqueued : Queue :=
  run (step noCron) (start 0) [.enqueue 1 "retention" (.obj []) 0 none (some "retention")]

/-- A worker takes the job before its row is locked. -/
def taken : List Event := [.claim 1 "w1" 1000 none (fun _ => false) 0]

end RecurringRegistration
