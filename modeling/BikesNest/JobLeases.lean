import BikesNest.Jobs
import BikesNest.Runs

/-! Leases of jobs under every order of the statements of any number of workers, with time passing
between them. The record beside the table has one entry for each claim, in the order in which they
were granted: what the worker was handed, until when its lease was last granted, and how many
outcomes it wrote. -/

namespace JobLeases

open Parking Schema Credentials Outcome Erasure Jobs Runs

structure Claim where
  job : ClaimedJob
  lease : Instant
  outcomes : ℕ

structure Queue where
  jobs : JobTable
  now : Instant
  claims : List Claim

/-- `wall` is the time of the process that runs the statement. A claim reads the clock `lag` before
it writes. -/
inductive Event where
  | elapse (gap : ℕ)
  | enqueue (id : ℕ) (kind : String) (payload : Json) (runAt : Instant) (maxAttempts : Option ℤ)
      (key : Option String)
  | enqueueMail (id : ℕ) (mail : AdmittedMail)
  | reserve (id : ℕ) (a : Registration)
  | repair (a : Registration)
  | finalize (kinds : Option (List String)) (locked : ℕ → Bool) (wall : Instant)
  | claim (batch : ℕ) (owner : String) (ttl : ℕ) (kinds : Option (List String))
      (locked : ℕ → Bool) (lag : ℕ)
  | claimId (id : ℕ) (owner : String) (ttl : ℕ)
  | heartbeat (id : ℕ) (owner : String) (ttl : ℕ)
  | outcome (id : ℕ) (owner : String) (o : Outcome)
  | run (id : ℕ) (owner : String) (registered : Bool) (result : HandlerResult) (wall : Instant)
      (base jitter : ℕ)
  | dispatch (id : ℕ) (owner : String) (result : HandlerResult) (wall : Instant)
  | gc (cutoff : Instant)

def start (now : Instant) : Queue := ⟨.empty, now, []⟩

def Claim.isOf (id : ℕ) (owner : String) (c : Claim) : Prop := c.job.id = id ∧ c.job.owner = owner

instance (id : ℕ) (owner : String) (c : Claim) : Decidable (c.isOf id owner) :=
  inferInstanceAs (Decidable (_ ∧ _))

/-- The latest claim of a row. -/
def latest (claims : List Claim) (id : ℕ) : Option Claim :=
  (claims.filter fun c => decide (c.job.id = id)).getLast?

def Queue.granted (q : Queue) (ttl : ℕ) (taken : JobTable × List ClaimedJob) : Queue :=
  { q with
    jobs := taken.1
    claims := q.claims ++ taken.2.map fun job => ⟨job, q.now + milliseconds ttl, 0⟩ }

/-- A statement of the owner of a claim that succeeds is recorded with the claim. -/
def Queue.written (q : Queue) (id : ℕ) (owner : String) (t : Except JobRepoError JobTable)
    (f : Claim → Claim) : Queue :=
  match t with
  | .ok jobs =>
    { q with jobs := jobs, claims := q.claims.map fun c => if c.isOf id owner then f c else c }
  | .error _ => q

/-- A statement that fails leaves the rows alone. -/
def Queue.stored {α : Type} (q : Queue) (t : Except JobRepoError (JobTable × α)) : Queue :=
  match t with
  | .ok (jobs, _) => { q with jobs := jobs }
  | .error _ => q

def Claim.close (c : Claim) : Claim := { c with outcomes := c.outcomes + 1 }

def Queue.persist (q : Queue) (id : ℕ) (owner : String) (o : Outcome) : Queue :=
  q.written id owner (o.write q.jobs id owner q.now) Claim.close

/-- What the worker that holds a claim writes. -/
def Queue.ended (q : Queue) (id : ℕ) (owner : String) (ending : ClaimedJob → Outcome) : Queue :=
  match q.claims.find? fun c => decide (c.isOf id owner) with
  | some c => q.persist id owner (ending c.job)
  | none => q

def step (cron : Cron) (q : Queue) : Event → Queue
  | .elapse gap => { q with now := q.now + gap }
  | .enqueue id kind payload runAt maxAttempts key =>
    q.stored (enqueue q.jobs id kind payload runAt maxAttempts key)
  | .enqueueMail id mail => q.stored (enqueueMail q.jobs id mail)
  | .reserve id a => q.stored (reserve cron q.jobs id a)
  | .repair a => q.stored (repair cron q.jobs a)
  | .finalize kinds locked wall =>
    { q with jobs := finalizeExhaustedLeases cron q.jobs kinds locked wall q.now }
  | .claim batch owner ttl kinds locked lag =>
    q.granted ttl (claim q.jobs batch owner ttl kinds locked (q.now - lag) q.now)
  | .claimId id owner ttl => q.granted ttl (claimId q.jobs id owner ttl q.now)
  | .heartbeat id owner ttl => q.written id owner (heartbeat q.jobs id owner ttl q.now)
      fun c => { c with lease := q.now + milliseconds ttl }
  | .outcome id owner o => q.persist id owner o
  | .run id owner registered result wall base jitter =>
    q.ended id owner fun job => runJob cron registered job result wall base jitter
  | .dispatch id owner result wall => q.ended id owner fun job => dispatch job result wall
  | .gc cutoff => { q with jobs := gc q.jobs cutoff }

/-- A claim is made under an owner that no claim had before. -/
def Fresh (q : Queue) : Event → Prop
  | .claim _ owner _ _ _ _ | .claimId _ owner _ => ∀ c ∈ q.claims, c.job.owner ≠ owner
  | _ => True

instance (q : Queue) (e : Event) : Decidable (Fresh q e) :=
  match e with
  | .claim _ owner _ _ _ _ => inferInstanceAs (Decidable (∀ c ∈ q.claims, c.job.owner ≠ owner))
  | .claimId _ owner _ => inferInstanceAs (Decidable (∀ c ∈ q.claims, c.job.owner ≠ owner))
  | .elapse _ | .enqueue _ _ _ _ _ _ | .enqueueMail _ _ | .reserve _ _ | .repair _
  | .finalize _ _ _ | .heartbeat _ _ _ | .outcome _ _ _ | .run _ _ _ _ _ _ _
  | .dispatch _ _ _ _ | .gc _ => .isTrue trivial

/-- The claim has written no outcome and its lease has not expired. -/
def Claim.live (now : Instant) (c : Claim) : Prop := c.outcomes = 0 ∧ now < c.lease

/-- What the leases of a queue are for. -/
structure Fenced (q : Queue) : Prop where
  single : ∀ c ∈ q.claims, ∀ d ∈ q.claims, c.job.id = d.job.id → c.live q.now → d.live q.now → c = d
  latestOnly : ∀ id owner o jobs, Outcome.write o q.jobs id owner q.now = .ok jobs →
    ∃ c, latest q.claims id = some c ∧ c.job.owner = owner ∧ c.live q.now
  once : ∀ c ∈ q.claims, c.outcomes ≤ 1
  lost : ∀ c ∈ q.claims, c.lease ≤ q.now →
    (∀ o, Outcome.write o q.jobs c.job.id c.job.owner q.now = .error (.lostOwnership c.job.id)) ∧
      ∀ ttl, heartbeat q.jobs c.job.id c.job.owner ttl q.now = .error (.lostOwnership c.job.id)

/-- The row is held under the claim, and is what the worker was handed. -/
structure Holds (j : QueuedJob) (c : Claim) : Prop where
  owner : j.claimedBy = some c.job.owner
  lease : j.leaseExpiresAt = some c.lease
  running : c.outcomes = 0
  kind : c.job.kind = j.kind
  payload : c.job.payload = j.payload
  attempts : c.job.attempts = j.attempts
  maxAttempts : c.job.maxAttempts = j.maxAttempts
  schedule : c.job.schedule = j.schedule

structure Kept (q : Queue) : Prop where
  held : ∀ j ∈ q.jobs, j.state = .running → ∃ c, latest q.claims j.id = some c ∧ Holds j c
  live : ∀ c ∈ q.claims, c.live q.now → ∃ j, q.jobs.find c.job.id = some j ∧ j.state = .running ∧
    j.claimedBy = some c.job.owner
  once : ∀ c ∈ q.claims, c.outcomes ≤ 1
  distinct : (q.claims.map fun c => (c.job.id, c.job.owner)).Nodup

variable {cron : Cron} {q q' : Queue} {claims : List Claim} {c d : Claim} {j : QueuedJob} {id : ℕ}
  {owner : String}

/-! The latest claim of a row. -/

theorem mem_latest (h : latest claims id = some c) : c ∈ claims ∧ c.job.id = id := by
  have h := List.mem_of_getLast? h
  simpa using h

theorem latest_append (more : List Claim) :
    latest (claims ++ more) id = (latest more id).or (latest claims id) := by
  unfold latest
  rw [List.filter_append, List.getLast?_append]

theorem latest_map (f : Claim → Claim) (hf : ∀ c, (f c).job = c.job) :
    latest (claims.map f) id = (latest claims id).map f := by
  unfold latest
  rw [List.filter_map, List.getLast?_map]
  simp only [Function.comp_def, hf]

theorem Kept.eq_of_key (kept : Kept q) (hc : c ∈ q.claims) (hd : d ∈ q.claims)
    (id : c.job.id = d.job.id) (owner : c.job.owner = d.job.owner) : c = d :=
  List.inj_on_of_nodup_map kept.distinct hc hd (by rw [id, owner])

/-- A claim that owns a running row is its latest claim. -/
theorem Kept.holds (kept : Kept q) (hj : j ∈ q.jobs) (running : j.state = .running)
    (hc : c ∈ q.claims) (id : c.job.id = j.id) (owns : j.claimedBy = some c.job.owner) :
    latest q.claims j.id = some c ∧ Holds j c := by
  obtain ⟨d, last, holds⟩ := kept.held j hj running
  obtain ⟨hd, ofRow⟩ := mem_latest last
  have same : d = c := kept.eq_of_key hd hc (ofRow.trans id.symm)
    (Option.some.inj (holds.owner.symm.trans owns))
  rw [← same]
  exact ⟨last, holds⟩

theorem fenced_of_kept (kept : Kept q) : Fenced q := by
  constructor
  · intro c hc d hd same liveC liveD
    obtain ⟨i, foundC, -, ownsC⟩ := kept.live c hc liveC
    obtain ⟨j, foundD, -, ownsD⟩ := kept.live d hd liveD
    rw [same, foundD] at foundC
    cases foundC
    exact kept.eq_of_key hc hd same (Option.some.inj (ownsC.symm.trans ownsD))
  · intro id owner o jobs written
    obtain ⟨⟨j, found, ⟨running, owns, leased⟩, -⟩, -⟩ := Outcome.write_ok written
    obtain ⟨hj, rfl⟩ := Table.find_eq_some.mp found
    obtain ⟨c, last, holds⟩ := kept.held j hj running
    obtain ⟨l, lease, later⟩ := leased
    rw [holds.lease, Option.mem_some_iff] at lease
    exact ⟨c, last, Option.some.inj (holds.owner.symm.trans owns), holds.running, lease ▸ later⟩
  · exact kept.once
  · intro c hc past
    have lost : ∀ j, q.jobs.find c.job.id = some j → ¬ j.owned c.job.owner q.now := by
      rintro j found ⟨running, owns, l, lease, later⟩
      obtain ⟨hj, same⟩ := Table.find_eq_some.mp found
      obtain ⟨-, holds⟩ := kept.holds hj running hc same.symm owns
      rw [holds.lease, Option.mem_some_iff] at lease
      exact absurd (lease ▸ past) (not_le.mpr later)
    exact ⟨fun o => Outcome.write_lost lost, fun ttl => writeOwned_lost lost⟩

/-! Steps that grant nothing and write no outcome. -/

/-- Time may pass; running rows stay as they are, but those whose lease is over. -/
structure Quiet (q q' : Queue) : Prop where
  claims : q'.claims = q.claims
  now : q.now ≤ q'.now
  rows : ∀ j ∈ q'.jobs, j.state = .running → j ∈ q.jobs
  stays : ∀ j ∈ q.jobs, j.state = .running → j.leased q'.now → j ∈ q'.jobs

theorem Quiet.refl (q : Queue) : Quiet q q := ⟨rfl, le_rfl, fun _ h _ => h, fun _ h _ _ => h⟩

theorem Quiet.kept (quiet : Quiet q q') (kept : Kept q) : Kept q' := by
  constructor
  · intro j hj running
    rw [quiet.claims]
    exact kept.held j (quiet.rows j hj running) running
  · intro c hc live
    rw [quiet.claims] at hc
    obtain ⟨j, found, running, owns⟩ := kept.live c hc ⟨live.1, quiet.now.trans_lt live.2⟩
    obtain ⟨hj, same⟩ := Table.find_eq_some.mp found
    obtain ⟨-, holds⟩ := kept.holds hj running hc same.symm owns
    have there : j ∈ q'.jobs := quiet.stays j hj running ⟨c.lease, holds.lease, live.2⟩
    exact ⟨j, Table.find_eq_some.mpr ⟨there, same⟩, running, owns⟩
  · rw [quiet.claims]
    exact kept.once
  · rw [quiet.claims]
    exact kept.distinct

theorem quiet_insert {row : QueuedJob} {jobs : JobTable} (idle : row.state ≠ .running)
    (inserted : q.jobs.insert row = some jobs) : Quiet q { q with jobs := jobs } := by
  refine ⟨rfl, le_rfl, fun j hj running => ?_, fun j hj _ _ => ?_⟩
  · rcases (Table.mem_insert inserted).mp hj with old | rfl
    · exact old
    · exact absurd running idle
  · exact (Table.mem_insert inserted).mpr (.inl hj)

theorem quiet_stored (row : QueuedJob) {t : Except JobRepoError (JobTable × Bool)}
    (idle : row.state ≠ .running)
    (from' : ∀ r, t = .ok r → insertUnlessKeyed q.jobs row = .ok r) : Quiet q (q.stored t) := by
  cases t with
  | error e => exact Quiet.refl q
  | ok r =>
    rcases insertUnlessKeyed_ok (from' r rfl) with ⟨same, -, -⟩ | ⟨-, inserted, -⟩
    · simp only [Queue.stored, same]
      exact Quiet.refl q
    · exact quiet_insert idle inserted

/-- A change of rows that are not running or whose lease is over. -/
theorem quiet_update {p : QueuedJob → Bool} {f : QueuedJob → QueuedJob}
    (hf : ∀ j, (f j).id = j.id)
    (idle : ∀ j ∈ q.jobs, p j = true → j.state = .running → ¬ j.leased q.now)
    (released : ∀ j ∈ q.jobs, p j = true → (f j).state ≠ .running) :
    Quiet q { q with jobs := q.jobs.update p f hf } := by
  refine ⟨rfl, le_rfl, fun j hj running => ?_, fun j hj running leased => ?_⟩
  · change j ∈ q.jobs.update p f hf at hj
    obtain ⟨i, hi, rfl⟩ := Table.mem_update.mp hj
    by_cases hit : p i = true
    · rw [if_pos hit] at running
      exact absurd running (released i hi hit)
    · rw [if_neg hit]
      exact hi
  · change j ∈ q.jobs.update p f hf
    refine Table.mem_update.mpr ⟨j, hj, if_neg fun hit => ?_⟩
    exact idle j hj hit running leased

theorem quiet_finalize {kinds : Option (List String)} {locked : ℕ → Bool} {wall : Instant} :
    Quiet q { q with jobs := finalizeExhaustedLeases cron q.jobs kinds locked wall q.now } := by
  refine quiet_update (finalize_id cron wall q.now) (fun j hj hit _ leased => ?_)
    fun j _ _ => (finalize_released cron wall q.now j).1
  have chosen := (chosen_iff (fun j h => (mem_exhaustedLeases h).1) hj).mp hit
  obtain ⟨-, -, ⟨l, lease, past⟩, -⟩ := mem_exhaustedLeases chosen
  obtain ⟨l', lease', later⟩ := leased
  rw [Option.mem_def] at lease lease'
  cases lease.symm.trans lease'
  exact absurd past (not_lt.mpr later.le)

theorem quiet_gc {cutoff : Instant} : Quiet q { q with jobs := gc q.jobs cutoff } := by
  refine ⟨rfl, le_rfl, fun j hj _ => (Table.mem_delete.mp hj).1, fun j hj running _ => ?_⟩
  refine Table.mem_delete.mpr ⟨hj, decide_eq_false fun h => ?_⟩
  rcases h.1 with h | h <;> rw [running] at h <;> cases h

theorem quiet_repair {a : Registration} : Quiet q (q.stored (repair cron q.jobs a)) := by
  cases h : repair cron q.jobs a with
  | error e => exact Quiet.refl q
  | ok r =>
    obtain ⟨jobs, outcome⟩ := r
    obtain ⟨-, j, hj, -, -, -, repairs⟩ := repair_ok h
    have hit {i : QueuedJob} (hi : i ∈ q.jobs) (key : decide (i.id = j.id) = true) : i = j :=
      Table.eq_of_key_eq hi hj (of_decide_eq_true key)
    cases repairs with
    | running | healthy => exact Quiet.refl q
    | scheduled state =>
      refine quiet_update (f := QueuedJob.adopt a) (fun _ => rfl) (fun i hi key running => ?_)
        fun i hi key => ?_
      · rw [hit hi key, state] at running
        cases running
      · rw [hit hi key]
        simp [QueuedJob.adopt, state]
    | revived runAt outcome terminal =>
      refine quiet_update (f := QueuedJob.revive runAt (some a.schedule) a.maxAttempts)
        (fun _ => rfl) (fun i hi key running => ?_) fun i _ _ => ?_
      · rw [← hit hi key, running] at terminal
        rcases terminal with h | h <;> cases h
      · simp [QueuedJob.revive, QueuedJob.requeue]

/-! Claims. -/

/-- The claim that a row gets. -/
def QueuedJob.grantedTo (owner : String) (lease : Instant) (j : QueuedJob) : Claim :=
  ⟨j.claimed owner, lease, 0⟩

section Grant

variable {p : QueuedJob → Bool} {lease : Instant}

/-- The claims that are granted together, one for each row. -/
def grants (jobs : JobTable) (p : QueuedJob → Bool) (owner : String) (lease : Instant) :
    List Claim :=
  (jobs.rows.filter p).map (QueuedJob.grantedTo owner lease)

theorem mem_grants : c ∈ grants q.jobs p owner lease ↔
    ∃ j ∈ q.jobs, p j = true ∧ QueuedJob.grantedTo owner lease j = c := by
  simp [grants, Table.mem_rows, and_assoc]

theorem latest_grants_of_hit (hj : j ∈ q.jobs) (hit : p j = true) :
    latest (grants q.jobs p owner lease) j.id = some (QueuedJob.grantedTo owner lease j) := by
  have mine : QueuedJob.grantedTo owner lease j ∈ grants q.jobs p owner lease :=
    mem_grants.mpr ⟨j, hj, hit, rfl⟩
  cases last : latest (grants q.jobs p owner lease) j.id with
  | none =>
    have empty := List.getLast?_eq_none_iff.mp last
    have there : QueuedJob.grantedTo owner lease j ∈
        (grants q.jobs p owner lease).filter fun c => decide (c.job.id = j.id) :=
      List.mem_filter.mpr ⟨mine, decide_eq_true rfl⟩
    rw [empty] at there
    cases there
  | some c =>
    obtain ⟨hc, ofRow⟩ := mem_latest last
    obtain ⟨i, hi, -, rfl⟩ := mem_grants.mp hc
    rw [Table.eq_of_key_eq hi hj ofRow]

theorem latest_grants_of_miss (hj : j ∈ q.jobs) (miss : p j = false) :
    latest (grants q.jobs p owner lease) j.id = none := by
  cases last : latest (grants q.jobs p owner lease) j.id with
  | none => rfl
  | some c =>
    obtain ⟨hc, ofRow⟩ := mem_latest last
    obtain ⟨i, hi, hit, rfl⟩ := mem_grants.mp hc
    rw [Table.eq_of_key_eq hi hj ofRow, miss] at hit
    cases hit

theorem grants_distinct (fresh : ∀ c ∈ q.claims, c.job.owner ≠ owner)
    (distinct : (q.claims.map fun c => (c.job.id, c.job.owner)).Nodup) :
    ((q.claims ++ grants q.jobs p owner lease).map fun c => (c.job.id, c.job.owner)).Nodup := by
  rw [List.map_append, List.nodup_append]
  refine ⟨distinct, ?_, ?_⟩
  · have ids : (q.jobs.rows.filter p).Pairwise fun i j => i.id ≠ j.id :=
      List.Pairwise.filter _ (List.pairwise_map.mp q.jobs.distinct)
    rw [grants, List.map_map]
    exact List.pairwise_map.mpr (ids.imp fun apart same => apart (congrArg Prod.fst same))
  · rintro a ha b hb rfl
    obtain ⟨c, hc, rfl⟩ := List.mem_map.mp ha
    obtain ⟨d, hd, same⟩ := List.mem_map.mp hb
    obtain ⟨j, -, -, rfl⟩ := mem_grants.mp hd
    exact fresh c hc (congrArg Prod.snd same).symm

/-- Rows are claimed that are not running or whose lease is over. -/
theorem kept_granted {ttl : ℕ} (kept : Kept q)
    (fresh : ∀ c ∈ q.claims, c.job.owner ≠ owner)
    (idle : ∀ j ∈ q.jobs, p j = true → j.state = .running → ¬ j.leased q.now) :
    Kept (q.granted ttl (grant q.jobs p owner ttl q.now)) := by
  let lease := q.now + milliseconds ttl
  have claims : (q.granted ttl (grant q.jobs p owner ttl q.now)).claims =
      q.claims ++ grants q.jobs p owner lease := by
    simp only [Queue.granted, grant, grants, List.map_map]
    rfl
  have jobs : (q.granted ttl (grant q.jobs p owner ttl q.now)).jobs =
      q.jobs.update p (QueuedJob.claim owner ttl q.now) fun _ => rfl := rfl
  constructor
  · intro j hj running
    rw [jobs] at hj
    obtain ⟨i, hi, rfl⟩ := Table.mem_update.mp hj
    rw [claims, latest_append]
    cases hit : p i with
    | true =>
      refine ⟨QueuedJob.grantedTo owner lease i, ?_, rfl, rfl, rfl, rfl, rfl, rfl, rfl, rfl⟩
      rw [if_pos rfl]
      exact congrArg (Option.or · _) (latest_grants_of_hit hi hit)
    | false =>
      rw [hit] at running
      rw [if_neg Bool.false_ne_true, latest_grants_of_miss hi hit, Option.none_or]
      exact kept.held i hi running
  · intro c hc live
    rw [claims] at hc
    rw [jobs]
    rcases List.mem_append.mp hc with old | new
    · obtain ⟨j, found, running, owns⟩ := kept.live c old live
      obtain ⟨hj, same⟩ := Table.find_eq_some.mp found
      obtain ⟨-, holds⟩ := kept.holds hj running old same.symm owns
      have missed : ¬ p j = true := fun hit => idle j hj hit running ⟨c.lease, holds.lease, live.2⟩
      refine ⟨j, (Table.find_update _ _ _ _ _).trans ?_, running, owns⟩
      rw [found, Option.map_some, if_neg missed]
    · obtain ⟨j, hj, hit, rfl⟩ := mem_grants.mp new
      refine ⟨j.claim owner ttl q.now, ?_, rfl, rfl⟩
      refine (Table.find_update _ _ _ _ _).trans ?_
      rw [show q.jobs.find (QueuedJob.grantedTo owner lease j).job.id = some j from
        Table.find_of_mem hj, Option.map_some, if_pos hit]
  · intro c hc
    rw [claims] at hc
    rcases List.mem_append.mp hc with old | new
    · exact kept.once c old
    · obtain ⟨j, -, -, rfl⟩ := mem_grants.mp new
      exact Nat.zero_le 1
  · rw [claims]
    exact grants_distinct fresh kept.distinct

end Grant

/-! Statements of owners. -/

/-- Who writes holds the latest claim of the row. -/
theorem Kept.owner_holds (kept : Kept q) (found : q.jobs.find id = some j)
    (owned : j.owned owner q.now) :
    ∃ c, latest q.claims id = some c ∧ Holds j c ∧ c.job.owner = owner ∧ q.now < c.lease := by
  obtain ⟨running, owns, l, lease, later⟩ := owned
  obtain ⟨hj, rfl⟩ := Table.find_eq_some.mp found
  obtain ⟨c, last, holds⟩ := kept.held j hj running
  rw [holds.lease, Option.mem_some_iff] at lease
  exact ⟨c, last, holds, Option.some.inj (holds.owner.symm.trans owns), lease ▸ later⟩

/-- The record of one claim changes, in everything but what was handed out. -/
def amend (id : ℕ) (owner : String) (f : Claim → Claim) (c : Claim) : Claim :=
  if c.isOf id owner then f c else c

theorem amend_job {f : Claim → Claim} (hf : ∀ c, (f c).job = c.job) (c : Claim) :
    (amend id owner f c).job = c.job := by
  unfold amend
  split
  · exact hf c
  · rfl

theorem distinct_amend {f : Claim → Claim} (hf : ∀ c, (f c).job = c.job)
    (distinct : (claims.map fun c => (c.job.id, c.job.owner)).Nodup) :
    ((claims.map (amend id owner f)).map fun c => (c.job.id, c.job.owner)).Nodup := by
  rw [List.map_map]
  have same : (fun c : Claim => (c.job.id, c.job.owner)) ∘ amend id owner f =
      fun c => (c.job.id, c.job.owner) := by
    funext c
    simp only [Function.comp_apply, amend_job hf]
  rwa [same]

/-- The owner writes its row, and its claim is amended. -/
theorem kept_written {f : QueuedJob → QueuedJob} {hf : ∀ j, (f j).id = j.id} {g : Claim → Claim}
    (kept : Kept q) (found : q.jobs.find id = some j) (owned : j.owned owner q.now)
    (keeps : ∀ c, (g c).job = c.job)
    (holds' : ∀ c, Holds j c → (f j).state = .running → Holds (f j) (g c))
    (opens : ∀ c, (g c).outcomes = 0 → (f j).state = .running ∧ (f j).claimedBy = j.claimedBy)
    (once : ∀ c, c.outcomes = 0 → (g c).outcomes ≤ 1) :
    Kept { q with
      jobs := q.jobs.update (fun r => decide (r.id = id)) f hf
      claims := q.claims.map (amend id owner g) } := by
  obtain ⟨c, last, holds, rfl, -⟩ := kept.owner_holds found owned
  obtain ⟨hc, rfl⟩ := mem_latest last
  obtain ⟨hj, ofRow⟩ := Table.find_eq_some.mp found
  have hit : amend c.job.id c.job.owner g c = g c := if_pos ⟨rfl, rfl⟩
  have mine {b : Claim} (hb : b ∈ q.claims) (own : b.isOf c.job.id c.job.owner) : b = c :=
    kept.eq_of_key hb hc own.1 own.2
  have after (k : ℕ) : (q.jobs.update (fun r => decide (r.id = c.job.id)) f hf).find k =
      (q.jobs.find k).map fun r => if r.id = c.job.id then f r else r := by
    simp
  constructor
  · intro i hi running
    change i ∈ q.jobs.update (fun r => decide (r.id = c.job.id)) f hf at hi
    obtain ⟨k, hk, rfl⟩ := Table.mem_update.mp hi
    change ∃ d, latest (q.claims.map (amend c.job.id c.job.owner g)) _ = some d ∧ _
    rw [latest_map _ (amend_job keeps)]
    by_cases same : k.id = c.job.id
    · obtain rfl : k = j := Table.eq_of_key_eq hk hj (same.trans ofRow.symm)
      rw [if_pos (decide_eq_true same)] at running ⊢
      rw [hf, same, last, Option.map_some, hit]
      exact ⟨g c, rfl, holds' c holds running⟩
    · rw [if_neg (by simpa using same)] at running ⊢
      obtain ⟨d, lastD, holdsD⟩ := kept.held k hk running
      have apart : ¬ d.isOf c.job.id c.job.owner := fun own =>
        same ((mem_latest lastD).2.symm.trans own.1)
      rw [lastD, Option.map_some, amend, if_neg apart]
      exact ⟨d, rfl, holdsD⟩
  · intro d hd live
    obtain ⟨b, hb, rfl⟩ := List.mem_map.mp hd
    rw [amend_job keeps]
    by_cases own : b.isOf c.job.id c.job.owner
    · obtain rfl := mine hb own
      rw [hit] at live
      obtain ⟨running, owns⟩ := opens b live.1
      refine ⟨f j, (after _).trans ?_, running, owns.trans holds.owner⟩
      rw [found, Option.map_some, if_pos ofRow]
    · rw [amend, if_neg own] at live
      obtain ⟨i, there, running, owns⟩ := kept.live b hb live
      refine ⟨i, (after _).trans ?_, running, owns⟩
      have key := (Table.find_eq_some.mp there).2
      rw [there, Option.map_some, if_neg]
      intro same
      -- the row has one owner, who is writing
      rw [← key, same, found] at there
      cases there
      exact own ⟨key.symm.trans same, Option.some.inj (owns.symm.trans holds.owner)⟩
  · intro d hd
    obtain ⟨b, hb, rfl⟩ := List.mem_map.mp hd
    by_cases own : b.isOf c.job.id c.job.owner
    · obtain rfl := mine hb own
      rw [hit]
      exact once b holds.running
    · rw [amend, if_neg own]
      exact kept.once b hb
  · exact distinct_amend keeps kept.distinct

theorem kept_heartbeat {ttl : ℕ} (kept : Kept q) :
    Kept (q.written id owner (heartbeat q.jobs id owner ttl q.now)
      fun c => { c with lease := q.now + milliseconds ttl }) := by
  cases h : heartbeat q.jobs id owner ttl q.now with
  | error e => exact kept
  | ok jobs =>
    obtain ⟨⟨j, found, owned, -⟩, rfl⟩ := writeOwned_ok.mp h
    refine kept_written kept found owned (fun _ => rfl) (fun c holds _ => ?_)
      (fun c _ => ⟨owned.1, rfl⟩) fun c free => free.le.trans (Nat.zero_le 1)
    exact ⟨holds.owner, rfl, holds.running, holds.kind, holds.payload, holds.attempts,
      holds.maxAttempts, holds.schedule⟩

theorem kept_persist {o : Outcome} (kept : Kept q) : Kept (q.persist id owner o) := by
  unfold Queue.persist
  cases h : o.write q.jobs id owner q.now with
  | error e => exact kept
  | ok jobs =>
    obtain ⟨⟨j, found, owned, -⟩, rfl⟩ := Outcome.write_ok h
    refine kept_written kept found owned (fun _ => rfl) (fun c _ running => ?_)
      (fun c none => ?_) fun c free => by simp [Claim.close, free]
    · exact absurd running (o.apply_released q.now j).1
    · simp [Claim.close] at none

theorem kept_ended {ending : ClaimedJob → Outcome} (kept : Kept q) :
    Kept (q.ended id owner ending) := by
  unfold Queue.ended
  split
  · exact kept_persist kept
  · exact kept

/-- A row that is claimed by its id is not leased. -/
theorem claimableById_idle {clock : Instant} (hit : claimableById id clock j = true)
    (running : j.state = .running) : ¬ j.leased clock := by
  simp only [claimableById, decide_eq_true_eq] at hit
  obtain ⟨-, -, -, -, pending | ⟨-, l, lease, past⟩⟩ := hit
  · rw [running] at pending
    cases pending
  · rintro ⟨l', lease', later⟩
    cases lease.symm.trans lease'
    exact absurd past (not_le.mpr later)

/-- Neither is a row that a claim chooses. -/
theorem candidate_idle {batch lag : ℕ} {kinds : Option (List String)} {locked : ℕ → Bool}
    (chosen : j ∈ candidates q.jobs batch kinds locked (q.now - lag))
    (running : j.state = .running) : ¬ j.leased q.now := by
  obtain ⟨-, -, pending | ⟨-, ⟨l, lease, past⟩, -⟩⟩ := mem_candidates chosen
  · rw [running] at pending
    cases pending
  · rintro ⟨l', lease', later⟩
    cases lease.symm.trans lease'
    have earlier : q.now - (lag : ℤ) ≤ q.now := by linarith [Int.natCast_nonneg lag]
    exact absurd (past.trans_le earlier) (not_lt.mpr later.le)

theorem step_kept {e : Event} (kept : Kept q) (fresh : Fresh q e) : Kept (step cron q e) := by
  cases e with
  | elapse gap =>
    have passes : q.now ≤ q.now + gap := by linarith [Int.natCast_nonneg gap]
    have quiet : Quiet q { q with now := q.now + gap } :=
      ⟨rfl, passes, fun _ h _ => h, fun _ h _ _ => h⟩
    exact quiet.kept kept
  | enqueue id kind payload runAt maxAttempts key =>
    refine (quiet_stored (newJob id kind payload runAt none (maxAttempts.getD 5) key)
      (by simp [newJob]) fun r h => ?_).kept kept
    simp only [enqueue, bind_ok, ensure_ok] at h
    obtain ⟨_, -, h⟩ := h
    exact h
  | enqueueMail id mail =>
    exact (quiet_stored _ (by simp [newJob]) fun r h => h).kept kept
  | reserve id a =>
    refine (quiet_stored (newJob id a.kind a.payload a.runAt (some a.schedule) a.maxAttempts
      (some a.key)) (by simp [newJob]) fun r h => ?_).kept kept
    simp only [reserve, bind_ok, ensure_ok] at h
    obtain ⟨_, -, _, -, h⟩ := h
    exact h
  | repair a => exact quiet_repair.kept kept
  | finalize kinds locked wall => exact quiet_finalize.kept kept
  | claim batch owner ttl kinds locked lag =>
    refine kept_granted kept fresh fun j hj hit running => ?_
    exact candidate_idle ((chosen_iff (fun j h => (mem_candidates h).1) hj).mp hit) running
  | claimId id owner ttl =>
    exact kept_granted kept fresh fun j _ hit running => claimableById_idle hit running
  | heartbeat id owner ttl => exact kept_heartbeat kept
  | outcome id owner o => exact kept_persist kept
  | run id owner registered result wall base jitter =>
    change Kept (q.ended id owner fun job => runJob cron registered job result wall base jitter)
    exact kept_ended kept
  | dispatch id owner result wall =>
    change Kept (q.ended id owner fun job => dispatch job result wall)
    exact kept_ended kept
  | gc cutoff => exact quiet_gc.kept kept

theorem start_kept (now : Instant) : Kept (start now) :=
  ⟨fun j hj => absurd hj (Table.not_mem_empty j), by simp [start], by simp [start], by simp [start]⟩

/-- In every run under fresh owners, a row has one live claim at most, only the latest claim of a
row writes an outcome, at most one and while its lease runs, and after that it has lost the row. -/
theorem leases_fence (cron : Cron) (now : Instant) (events : List Event)
    (fresh : Along (step cron) Fresh (start now) events) :
    Fenced (run (step cron) (start now) events) :=
  fenced_of_kept (run_invariant (fun _ _ => step_kept) (start_kept now) fresh)

def noCron : Cron := fun _ _ => none

/-- The second worker takes over a job that the first held for too long. -/
def handover : List Event :=
  [.enqueue 1 "retention" (.obj []) 0 none none, .claim 1 "w1" 10 none (fun _ => false) 0,
    .elapse 20000, .claim 1 "w2" 10 none (fun _ => false) 0,
    .outcome 1 "w1" (.finishSuccess none 0), .outcome 1 "w2" (.finishSuccess none 0)]

theorem leases_fence_handover : Fenced (run (step noCron) (start 0) handover) :=
  leases_fence noCron 0 handover (by decide +kernel)

example : (run (step noCron) (start 0) handover).claims.map (fun c => (c.job.owner, c.outcomes)) =
    [("w1", 0), ("w2", 1)] := by decide +kernel

end JobLeases
