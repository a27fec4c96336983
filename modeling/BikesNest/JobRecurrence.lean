import BikesNest.JobLeases

/-! Recurring jobs over runs of workers: their rows stay in the table and never end, and what is
shown as the last success of a job was one. -/

namespace JobRecurrence

open Parking Schema Credentials Outcome Erasure Jobs Runs JobLeases

variable (cron : Cron)

/-- The schedule has a next run at every time. -/
def Recurs (schedule : Json) : Prop := ∀ now, ∃ next, nextRunAt cron (some schedule) now = .ok (some next)

def Recurring (j : QueuedJob) : Prop := ∃ s ∈ j.schedule, Recurs cron s

/-- Owners are fresh, and the dispatcher ends only attempts at rows without a schedule, as mails
are. -/
def Working (q : Queue) : Event → Prop
  | .outcome _ _ _ => False
  | .dispatch id _ _ _ => ∀ j ∈ q.jobs.find id, j.schedule = none
  | e => Fresh q e

instance (q : Queue) (e : Event) : Decidable (Working q e) :=
  match e with
  | .outcome _ _ _ => .isFalse id
  | .dispatch id _ _ _ => inferInstanceAs (Decidable (∀ j ∈ q.jobs.find id, _))
  | .claim batch owner ttl kinds locked lag =>
    inferInstanceAs (Decidable (Fresh q (.claim batch owner ttl kinds locked lag)))
  | .claimId id owner ttl => inferInstanceAs (Decidable (Fresh q (.claimId id owner ttl)))
  | .elapse _ | .enqueue _ _ _ _ _ _ | .enqueueMail _ _ | .reserve _ _ | .repair _
  | .finalize _ _ _ | .heartbeat _ _ _ | .run _ _ _ _ _ _ _ | .gc _ => .isTrue trivial

/-- No worker that lacks the handler holds a recurring row when it ends its attempt. -/
def Handled (q : Queue) : Event → Prop
  | .run id owner false _ _ _ _ => ∀ j ∈ q.jobs.find id, j.owned owner q.now → ¬ Recurring cron j
  | _ => True

/-- The attempt at the row succeeded at `wall`. -/
inductive Success (q : Queue) (j : QueuedJob) (wall : Instant) : Event → Prop where
  | run (owner : String) (base jitter : ℕ) : j.owned owner q.now →
      Success q j wall (.run j.id owner true .ok wall base jitter)

/-- What becomes of a recurring row in a step. -/
structure Continues (q : Queue) (e : Event) (j j' : QueuedJob) : Prop where
  id : j'.id = j.id
  schedule : j'.schedule = j.schedule
  live : ¬ isTerminal j'.state
  success : j'.finishedAt = j.finishedAt ∨ ∃ wall, Success q j wall e ∧ j'.finishedAt = some wall

def Lasting (q : Queue) : Prop := ∀ j ∈ q.jobs, Recurring cron j → ¬ isTerminal j.state

/-- A step to the rows `jobs`. -/
structure Evolves (q : Queue) (e : Event) (jobs : JobTable) : Prop where
  carried : ∀ j ∈ q.jobs, Recurring cron j → ∃ j' ∈ jobs, Continues q e j j'
  origin : ∀ j' ∈ jobs, ¬ isTerminal j'.state ∨ ∃ j ∈ q.jobs, j.id = j'.id ∧ j.schedule = j'.schedule

variable {cron} {q : Queue} {e : Event} {j : QueuedJob} {id : ℕ} {owner : String}

theorem Recurring.nextRunAt (recurring : Recurring cron j) (now : Instant) :
    ∃ next, nextRunAt cron j.schedule now = .ok (some next) := by
  obtain ⟨s, scheduled, recurs⟩ := recurring
  rw [Option.mem_def.mp scheduled]
  exact recurs now

theorem Recurring.nextRun (recurring : Recurring cron j) (now : Instant) :
    ∃ next, nextRun cron j.schedule now = some next := by
  obtain ⟨next, h⟩ := recurring.nextRunAt now
  exact ⟨next, by rw [Jobs.nextRun, h]⟩

theorem not_terminal_of_pending (pending : j.state = .pending) : ¬ isTerminal j.state := by
  rw [pending]
  decide

theorem not_terminal_of_running (running : j.state = .running) : ¬ isTerminal j.state := by
  rw [running]
  decide

/-- A row that keeps its schedule and its time of success, and is not ended, continues. -/
theorem Continues.of_keeps {j' : QueuedJob} (id : j'.id = j.id) (schedule : j'.schedule = j.schedule)
    (live : ¬ isTerminal j'.state) (finishedAt : j'.finishedAt = j.finishedAt) :
    Continues q e j j' := ⟨id, schedule, live, .inl finishedAt⟩

theorem Lasting.evolves (lasting : Lasting cron q) : Evolves cron q e q.jobs where
  carried j hj recurring := ⟨j, hj, .of_keeps rfl rfl (lasting j hj recurring) rfl⟩
  origin j hj := .inr ⟨j, hj, rfl, rfl⟩

/-- After the step too a recurring row is not terminal. -/
theorem Evolves.lasting {jobs : JobTable} (evolves : Evolves cron q e jobs) :
    ∀ j ∈ jobs, Recurring cron j → ¬ isTerminal j.state := by
  rintro j' hj' ⟨s, scheduled, recurs⟩
  rcases evolves.origin j' hj' with live | ⟨j, hj, id, schedule⟩
  · exact live
  · obtain ⟨i, hi, continues⟩ := evolves.carried j hj ⟨s, schedule ▸ scheduled, recurs⟩
    rw [← Table.eq_of_key_eq hi hj' (continues.id.trans id)]
    exact continues.live

theorem evolves_update {p : QueuedJob → Bool} {f : QueuedJob → QueuedJob}
    (hf : ∀ j, (f j).id = j.id) (lasting : Lasting cron q)
    (continues : ∀ j ∈ q.jobs, p j = true → Recurring cron j → Continues q e j (f j))
    (keeps : ∀ j ∈ q.jobs, p j = true → ¬ isTerminal (f j).state ∨ (f j).schedule = j.schedule) :
    Evolves cron q e (q.jobs.update p f hf) := by
  constructor
  · intro j hj recurring
    by_cases hit : p j = true
    · exact ⟨f j, Table.mem_update.mpr ⟨j, hj, if_pos hit⟩, continues j hj hit recurring⟩
    · refine ⟨j, Table.mem_update.mpr ⟨j, hj, if_neg hit⟩, ?_⟩
      exact .of_keeps rfl rfl (lasting j hj recurring) rfl
  · intro j' hj'
    obtain ⟨j, hj, rfl⟩ := Table.mem_update.mp hj'
    by_cases hit : p j = true
    · rw [if_pos hit]
      rcases keeps j hj hit with live | same
      · exact .inl live
      · exact .inr ⟨j, hj, (hf j).symm, same.symm⟩
    · rw [if_neg hit]
      exact .inr ⟨j, hj, rfl, rfl⟩

theorem evolves_insert {row : QueuedJob} {r : JobTable × Bool} (lasting : Lasting cron q)
    (pending : row.state = .pending) (h : insertUnlessKeyed q.jobs row = .ok r) :
    Evolves cron q e r.1 := by
  obtain ⟨jobs, free⟩ := r
  rcases insertUnlessKeyed_ok h with ⟨rfl, -, -⟩ | ⟨-, inserted, -⟩
  · exact lasting.evolves
  · constructor
    · intro j hj recurring
      refine ⟨j, (Table.mem_insert inserted).mpr (.inl hj), ?_⟩
      exact .of_keeps rfl rfl (lasting j hj recurring) rfl
    · intro j hj
      rcases (Table.mem_insert inserted).mp hj with old | rfl
      · exact .inr ⟨j, old, rfl, rfl⟩
      · exact .inl (not_terminal_of_pending pending)

theorem evolves_stored {α : Type} {t : Except JobRepoError (JobTable × α)}
    (lasting : Lasting cron q) (stored : ∀ r, t = .ok r → Evolves cron q e r.1) :
    Evolves cron q e (q.stored t).jobs := by
  cases t with
  | error _ => exact lasting.evolves
  | ok r => exact stored r rfl

/-- A registration repairs rows that have ended or have no schedule. -/
theorem evolves_repair {a : Registration} {r : JobTable × RegistrationOutcome}
    (lasting : Lasting cron q) (h : repair cron q.jobs a = .ok r) : Evolves cron q e r.1 := by
  obtain ⟨jobs, outcome⟩ := r
  obtain ⟨-, j, hj, -, -, -, repairs⟩ := repair_ok h
  have hit {i : QueuedJob} (hi : i ∈ q.jobs) (key : decide (i.id = j.id) = true) : i = j :=
    Table.eq_of_key_eq hi hj (of_decide_eq_true key)
  cases repairs with
  | running | healthy => exact lasting.evolves
  | scheduled pending unscheduled =>
    refine evolves_update (f := QueuedJob.adopt a) (fun _ => rfl) lasting
      (fun i hi key recurring => ?_) fun i hi key => .inl ?_
    · obtain ⟨s, scheduled, -⟩ := recurring
      rw [hit hi key, unscheduled] at scheduled
      cases scheduled
    · exact not_terminal_of_pending (by rw [hit hi key]; exact pending)
  | revived runAt outcome terminal =>
    refine evolves_update (f := QueuedJob.revive runAt (some a.schedule) a.maxAttempts)
      (fun _ => rfl) lasting (fun i hi key recurring => ?_) fun i _ _ => .inl ?_
    · obtain rfl := hit hi key
      exact absurd terminal (lasting i hi recurring)
    · exact not_terminal_of_pending rfl

theorem finalize_schedule (wall clock : Instant) (j : QueuedJob) :
    (j.finalize cron wall clock).schedule = j.schedule := by
  unfold QueuedJob.finalize
  split <;> rfl

theorem evolves_finalize {p : QueuedJob → Bool} {wall : Instant} (lasting : Lasting cron q) :
    Evolves cron q e (q.jobs.update p (QueuedJob.finalize cron wall q.now)
      (finalize_id cron wall q.now)) := by
  refine evolves_update _ lasting (fun j _ _ recurring => ?_)
    fun j _ _ => .inr (finalize_schedule wall q.now j)
  obtain ⟨next, h⟩ := recurring.nextRun wall
  refine .of_keeps (finalize_id cron wall q.now j) (finalize_schedule wall q.now j) ?_ ?_
  · simp only [QueuedJob.finalize, h]
    exact not_terminal_of_pending rfl
  · simp only [QueuedJob.finalize, h]
    rfl

theorem evolves_granted {p : QueuedJob → Bool} {ttl : ℕ} (lasting : Lasting cron q) :
    Evolves cron q e (grant q.jobs p owner ttl q.now).1 := by
  refine evolves_update (f := QueuedJob.claim owner ttl q.now) (fun _ => rfl) lasting
    (fun j _ _ _ => ?_) fun _ _ _ => .inr rfl
  exact .of_keeps rfl rfl (not_terminal_of_running rfl) rfl

theorem evolves_heartbeat {ttl : ℕ} {g : Claim → Claim} (lasting : Lasting cron q) :
    Evolves cron q e (q.written id owner (heartbeat q.jobs id owner ttl q.now) g).jobs := by
  cases h : heartbeat q.jobs id owner ttl q.now with
  | error _ => exact lasting.evolves
  | ok jobs =>
    obtain ⟨-, rfl⟩ := writeOwned_ok.mp h
    refine evolves_update (f := QueuedJob.extend ttl q.now) (fun _ => rfl) lasting
      (fun j hj _ recurring => ?_) fun _ _ _ => .inr rfl
    exact .of_keeps rfl rfl (lasting j hj recurring) rfl

theorem apply_schedule (o : Jobs.Outcome) (clock : Instant) (j : QueuedJob) :
    (o.apply clock j).schedule = j.schedule := by
  cases o with
  | finishSuccess next => cases next <;> rfl
  | _ => rfl

/-- The attempts of a worker end with outcomes that go on with the row. -/
theorem evolves_ended {ending : ClaimedJob → Jobs.Outcome} (kept : Kept q)
    (lasting : Lasting cron q)
    (continues : ∀ j, q.jobs.find id = some j → j.owned owner q.now → Recurring cron j →
      ∀ job : ClaimedJob, job.schedule = j.schedule →
        Continues q e j ((ending job).apply q.now j)) :
    Evolves cron q e (q.ended id owner ending).jobs := by
  unfold Queue.ended
  split
  swap
  · exact lasting.evolves
  rename_i c handed
  unfold Queue.persist
  cases h : (ending c.job).write q.jobs id owner q.now with
  | error _ => exact lasting.evolves
  | ok jobs =>
    obtain ⟨⟨j, found, owned, -⟩, rfl⟩ := Outcome.write_ok h
    refine evolves_update ((ending c.job).apply_id q.now) lasting (fun i hi key recurring => ?_)
      fun i _ _ => .inr (apply_schedule (ending c.job) q.now i)
    obtain ⟨hj, same⟩ := Table.find_eq_some.mp found
    obtain rfl : i = j := Table.eq_of_key_eq hi hj ((of_decide_eq_true key).trans same.symm)
    obtain ⟨ofRow, ofOwner⟩ : c.isOf id owner := by simpa using List.find?_some handed
    obtain ⟨-, holds⟩ := kept.holds hj owned.1 (List.mem_of_find?_eq_some handed)
      (ofRow.trans same.symm) (owned.2.1.trans (congrArg some ofOwner.symm))
    exact continues i found owned recurring c.job holds.schedule

theorem continues_giveUp {job : ClaimedJob} {error : String} {wall : Instant}
    (recurring : Recurring cron j) (schedule : job.schedule = j.schedule) :
    Continues q e j ((giveUp cron job error wall).apply q.now j) := by
  obtain ⟨next, h⟩ := recurring.nextRun wall
  simp only [giveUp, schedule, h]
  exact .of_keeps rfl rfl (not_terminal_of_pending rfl) rfl

theorem continues_runJob {result : HandlerResult} {wall : Instant} {base jitter : ℕ}
    {job : ClaimedJob} (owned : j.owned owner q.now) (recurring : Recurring cron j)
    (schedule : job.schedule = j.schedule) :
    Continues q (.run j.id owner true result wall base jitter) j
      ((runJob cron true job result wall base jitter).apply q.now j) := by
  cases result with
  | ok =>
    obtain ⟨next, h⟩ := recurring.nextRunAt wall
    simp only [runJob, if_pos, schedule, h]
    refine ⟨rfl, rfl, not_terminal_of_pending rfl, .inr ⟨wall, .run owner base jitter owned, rfl⟩⟩
  | failed error =>
    simp only [runJob, if_pos]
    split
    · exact .of_keeps rfl rfl (not_terminal_of_pending rfl) rfl
    · exact continues_giveUp recurring schedule
  | permanent error =>
    simp only [runJob, if_pos]
    exact continues_giveUp recurring schedule

theorem step_evolves (kept : Kept q) (lasting : Lasting cron q) (working : Working q e)
    (handled : Handled cron q e) : Evolves cron q e (step cron q e).jobs := by
  cases e with
  | elapse gap => exact lasting.evolves
  | enqueue id kind payload runAt maxAttempts key =>
    refine evolves_stored lasting fun r h => ?_
    simp only [enqueue, bind_ok] at h
    obtain ⟨_, -, h⟩ := h
    exact evolves_insert lasting rfl h
  | enqueueMail id mail => exact evolves_stored lasting fun r h => evolves_insert lasting rfl h
  | reserve id a =>
    refine evolves_stored lasting fun r h => ?_
    simp only [reserve, bind_ok] at h
    obtain ⟨_, -, _, -, h⟩ := h
    exact evolves_insert lasting rfl h
  | repair a => exact evolves_stored lasting fun r h => evolves_repair lasting h
  | finalize kinds locked wall => exact evolves_finalize lasting
  | claim batch owner ttl kinds locked lag => exact evolves_granted lasting
  | claimId id owner ttl => exact evolves_granted lasting
  | heartbeat id owner ttl => exact evolves_heartbeat lasting
  | outcome id owner o => exact absurd working not_false
  | run id owner registered result wall base jitter =>
    refine evolves_ended kept lasting fun j found owned recurring job schedule => ?_
    obtain ⟨-, rfl⟩ := Table.find_eq_some.mp found
    cases registered with
    | true => exact continues_runJob owned recurring schedule
    | false => exact absurd recurring (handled j found owned)
  | dispatch id owner result wall =>
    refine evolves_ended kept lasting fun j found _ recurring _ _ => ?_
    obtain ⟨s, scheduled, -⟩ := recurring
    rw [working j found] at scheduled
    cases scheduled
  | gc cutoff =>
    constructor
    · intro j hj recurring
      have live := lasting j hj recurring
      refine ⟨j, Table.mem_delete.mpr ⟨hj, decide_eq_false fun h => live h.1⟩, ?_⟩
      exact .of_keeps rfl rfl live rfl
    · exact fun j hj => .inr ⟨j, (Table.mem_delete.mp hj).1, rfl, rfl⟩

theorem step_recurrence (sound : Kept q ∧ Lasting cron q) (permitted : Working q e ∧ Handled cron q e) :
    Kept (step cron q e) ∧ Lasting cron (step cron q e) := by
  obtain ⟨kept, lasting⟩ := sound
  obtain ⟨working, handled⟩ := permitted
  have fresh : Fresh q e := by
    cases e <;> first | exact working | exact trivial
  exact ⟨step_kept kept fresh, (step_evolves kept lasting working handled).lasting⟩

/-- Recurring jobs never stop, and their time of success is that of a success, as long as every
worker has the handlers of the recurring jobs that it claims. -/
theorem recurring_jobs_last (cron : Cron) (now : Instant) (events : List Event)
    (permitted : Along (step cron) (fun q e => Working q e ∧ Handled cron q e) (start now) events) :
    Lasting cron (run (step cron) (start now) events) ∧
      Along (step cron) (fun q e => ∀ j ∈ q.jobs, Recurring cron j →
        ∃ j' ∈ (step cron q e).jobs, Continues q e j j') (start now) events := by
  have begin : Kept (start now) ∧ Lasting cron (start now) :=
    ⟨start_kept now, fun j hj => absurd hj (Table.not_mem_empty j)⟩
  constructor
  · exact (run_invariant (I := fun q => Kept q ∧ Lasting cron q) (fun _ _ => step_recurrence) begin
      permitted).2
  · exact along_of_invariant (I := fun q => Kept q ∧ Lasting cron q) (fun _ _ => step_recurrence)
      (fun q e sound allowed => (step_evolves sound.1 sound.2 allowed.1 allowed.2).carried) begin
      permitted

def retention : Registration :=
  ⟨"retention.run", .obj [], .obj [("every_seconds", .num (.int 3600))], 0, 5, "retention"⟩

theorem retention_recurs (cron : Cron) : Recurs cron retention.schedule :=
  fun now => ⟨now + 3600 * 1000000, rfl⟩

/-- A registered job runs once, on a worker that has its handler or not. -/
def firstRun (registered : Bool) : List Event :=
  [.reserve 1 retention, .claim 1 "w1" 1000 none (fun _ => false) 0,
    .run 1 "w1" registered .ok 0 5000 0]

theorem recurring_jobs_last_first :
    Lasting noCron (run (step noCron) (start 0) (firstRun true)) ∧
      Along (step noCron) (fun q e => ∀ j ∈ q.jobs, Recurring noCron j →
        ∃ j' ∈ (step noCron q e).jobs, Continues q e j j') (start 0) (firstRun true) :=
  recurring_jobs_last noCron 0 (firstRun true)
    ⟨⟨trivial, trivial⟩, ⟨by decide +kernel, trivial⟩, ⟨trivial, trivial⟩, trivial⟩

/-- The worker that lacks the handler ends the row, and what is shown as its last success is the
time at which it was dead-lettered. -/
theorem missing_handler_ends :
    Along (step noCron) Working (start 0) (firstRun false) ∧
      ¬ Lasting noCron (run (step noCron) (start 0) (firstRun false)) ∧
      ∃ j ∈ (run (step noCron) (start 0) (firstRun false)).jobs.rows,
        j.schedule = some retention.schedule ∧ j.finishedAt.isSome = true := by
  refine ⟨by decide +kernel, fun lasting => ?_, by decide +kernel⟩
  have ended : ∃ j ∈ (run (step noCron) (start 0) (firstRun false)).jobs.rows,
      j.schedule = some retention.schedule ∧ isTerminal j.state := by decide +kernel
  obtain ⟨j, hj, scheduled, terminal⟩ := ended
  exact lasting j hj ⟨_, scheduled, retention_recurs noCron⟩ terminal

end JobRecurrence
