import BikesNest.DateTimes
import BikesNest.Jobs

/-! The times of the queue with the limits of the date-time library: when a recurring job runs
next, and when a failed one is tried again. -/

namespace JobTimes

open Outcome DateTimes
open Jobs hiding milliseconds

/-- The parser of cron expressions with its next tick after a time, when there is one. -/
abbrev Ticks := String → DateTime → Option DateTime

/-- `next_run_at` -/
def nextRunAt (cron : Ticks) (schedule : Option Json) (now : DateTime) :
    Except Panic (Except ScheduleError (Option DateTime)) :=
  match schedule with
  | none | some .null => pure (.ok none)
  | some (.obj fields) =>
    match (Json.get "every_seconds" (.obj fields)).bind Json.asI64 with
    | some secs =>
      if secs ≤ 0 then pure (.error (.notPositive secs))
      else do
        let delta ← seconds secs
        let next ← addDelta now delta
        pure (.ok (some next))
    | none =>
      match (Json.get "cron" (.obj fields)).bind Json.asStr with
      | some expr =>
        match cron (normalizeCron expr) now with
        | some next => pure (.ok (some next))
        | none => pure (.error (.cron expr))
      | none => pure (.error .unsupported)
  | some _ => pure (.error .notObject)

/-- The knobs of the worker; durations are in nanoseconds. -/
structure JobConfig where
  batchSize : ℕ
  leaseTtl : ℕ
  handlerTimeout : ℕ
  shutdownGrace : ℕ
  maxAttempts : ℤ
  backoffBaseMs : ℕ
  baseU64 : backoffBaseMs < 2 ^ 64

/-- The default, with another limit of attempts. -/
def JobConfig.withAttempts (maxAttempts : ℤ) : JobConfig where
  batchSize := 4
  leaseTtl := 600000000000
  handlerTimeout := 300000000000
  shutdownGrace := 30000000000
  maxAttempts := maxAttempts
  backoffBaseMs := 2000
  baseU64 := by decide

def JobConfig.validate (config : JobConfig) : Except (List String) Unit :=
  let errors :=
    (if config.batchSize = 0 then ["JOBS_BATCH_SIZE must be greater than zero"] else []) ++
    (if config.leaseTtl < 3000000 then ["JOBS_LEASE_TTL_MS must be at least 3"] else []) ++
    (if config.handlerTimeout = 0 then ["JOBS_HANDLER_TIMEOUT_MS must be greater than zero"]
      else []) ++
    (if config.shutdownGrace = 0 then ["JOBS_SHUTDOWN_GRACE_MS must be greater than zero"] else [])
  ensure (errors = []) errors

/-- The failure of an attempt that is not the last, under an accepted configuration: the numbers
of the row are 32-bit, and the jitter is drawn below the base. -/
structure Retry where
  config : JobConfig
  accepted : config.validate = .ok ()
  attempts : ℕ
  maxAttempts : ℤ
  limited : attempts < maxAttempts ∧ maxAttempts < 2 ^ 31
  jitter : ℕ
  drawn : jitter < max config.backoffBaseMs 1
  now : DateTime

/-- The retry time of `run_job`. -/
def Retry.runAt (r : Retry) : Except Panic DateTime := do
  let delta ← milliseconds (wrapI64 (backoffMs r.attempts r.config.backoffBaseMs r.jitter))
  addDelta r.now delta

/-- The delay that `backoff_ms` comes to where no limit is met. -/
def Retry.delay (r : Retry) : ℕ :=
  r.config.backoffBaseMs * 2 ^ min (r.attempts - 1) 63 + r.jitter

/-- `exponential` of `backoff_ms` -/
def exponential (base attempt : ℕ) : ℕ := min (base * 2 ^ min (attempt - 1) 63) (2 ^ 64 - 1)

/-- No panic, and a time that is given is after `now`. -/
def NextForward (cron : Ticks) (schedule : Option Json) (now : DateTime) : Prop :=
  ∃ result, nextRunAt cron schedule now = .ok result ∧
    ∀ next, result = .ok (some next) → now.nanos < next.nanos

/-- No panic, and a time that is not before `now`. -/
def RetryForward (r : Retry) : Prop := ∃ t, r.runAt = .ok t ∧ r.now.nanos ≤ t.nanos

/-- The interval of a schedule, if it is one of seconds, ends within the times that there are. -/
def IntervalFits (schedule : Option Json) (now : DateTime) : Prop :=
  ∀ fields secs, schedule = some (.obj fields) →
    (Json.get "every_seconds" (.obj fields)).bind Json.asI64 = some secs →
    now.nanos + secs * 1000000000 ≤ maxUtc

/-- A schedule that names no number of seconds does not panic. -/
theorem nextForward_of_pure {cron : Ticks} {schedule : Option Json} {now : DateTime}
    {result : Except ScheduleError (Option DateTime)}
    (h : nextRunAt cron schedule now = .ok result)
    (after : ∀ next, result = .ok (some next) → now.nanos < next.nanos)
    (other : ∀ fields secs, schedule = some (.obj fields) →
      (Json.get "every_seconds" (.obj fields)).bind Json.asI64 = some secs → secs ≤ 0) :
    NextForward cron schedule now ↔ IntervalFits schedule now := by
  refine iff_of_true ⟨result, h, after⟩ fun fields secs object named => ?_
  have := other fields secs object named
  have := now.valid
  omega

theorem nextForward_seconds {cron : Ticks} {fields : List (String × Json)} {secs : ℤ}
    {now : DateTime} (named : (Json.get "every_seconds" (.obj fields)).bind Json.asI64 = some secs)
    (positive : 0 < secs) :
    NextForward cron (some (.obj fields)) now ↔ IntervalFits (some (.obj fields)) now := by
  have run : nextRunAt cron (some (.obj fields)) now = (do
      let delta ← seconds secs
      let next ← addDelta now delta
      pure (.ok (some next))) := by
    simp only [nextRunAt, named, if_neg (not_le.mpr positive)]
  have fits : IntervalFits (some (.obj fields)) now ↔ now.nanos + secs * 1000000000 ≤ maxUtc := by
    constructor
    · exact fun fits => fits fields secs rfl named
    · rintro le _ secs' ⟨⟩ named'
      rw [named] at named'
      cases named'
      exact le
  rw [fits, NextForward, run]
  simp only [seconds, bind_ok, ensure_ok, pure_ok]
  constructor
  · rintro ⟨_, ⟨_, ⟨_, ⟨-, -⟩, rfl⟩, next, sum, rfl⟩, -⟩
    exact (addDelta_fits (by omega)).mp ⟨next, sum⟩
  · intro le
    obtain ⟨next, sum⟩ := (addDelta_fits (by omega)).mpr le
    have small : -9223372036854775 ≤ secs ∧ secs ≤ 9223372036854775 := by
      have := now.valid
      unfold minUtc maxUtc at *
      omega
    refine ⟨_, ⟨_, ⟨(), small, rfl⟩, next, sum, rfl⟩, ?_⟩
    rintro _ ⟨⟩
    rw [addDelta_ok] at sum
    omega

/-- The next run is given without a panic, and after `now`, exactly when it is among the times
that there are. -/
theorem nextForward_iff {cron : Ticks} (ticks : ∀ expr now next, cron expr now = some next →
    now.nanos < next.nanos) (schedule : Option Json) (now : DateTime) :
    NextForward cron schedule now ↔ IntervalFits schedule now := by
  match schedule with
  | none => exact nextForward_of_pure rfl (fun _ h => nomatch h) (fun _ _ h => nomatch h)
  | some .null => exact nextForward_of_pure rfl (fun _ h => nomatch h) (fun _ _ h => nomatch h)
  | some (.bool _) => exact nextForward_of_pure rfl (fun _ h => nomatch h) (fun _ _ h => nomatch h)
  | some (.num _) => exact nextForward_of_pure rfl (fun _ h => nomatch h) (fun _ _ h => nomatch h)
  | some (.str _) => exact nextForward_of_pure rfl (fun _ h => nomatch h) (fun _ _ h => nomatch h)
  | some (.arr _) => exact nextForward_of_pure rfl (fun _ h => nomatch h) (fun _ _ h => nomatch h)
  | some (.obj fields) =>
    cases named : (Json.get "every_seconds" (.obj fields)).bind Json.asI64 with
    | some secs =>
      by_cases positive : 0 < secs
      · exact nextForward_seconds named positive
      · have stopped : nextRunAt cron (some (.obj fields)) now = .ok (.error (.notPositive secs)) := by
          simp only [nextRunAt, named, if_pos (not_lt.mp positive)]
          rfl
        refine nextForward_of_pure stopped (fun _ h => nomatch h) ?_
        rintro _ secs' ⟨⟩ named'
        rw [named] at named'
        cases named'
        exact not_lt.mp positive
    | none =>
      have none : ∀ fields' secs, some (Json.obj fields) = some (.obj fields') →
          (Json.get "every_seconds" (.obj fields')).bind Json.asI64 = some secs → secs ≤ 0 := by
        rintro _ secs ⟨⟩ named'
        rw [named] at named'
        cases named'
      cases expr : (Json.get "cron" (.obj fields)).bind Json.asStr with
      | none =>
        have unsupported : nextRunAt cron (some (.obj fields)) now = .ok (.error .unsupported) := by
          simp only [nextRunAt, named, expr]
          rfl
        exact nextForward_of_pure unsupported (fun _ h => nomatch h) none
      | some e =>
        cases tick : cron (normalizeCron e) now with
        | none =>
          have stopped : nextRunAt cron (some (.obj fields)) now = .ok (.error (.cron e)) := by
            simp only [nextRunAt, named, expr, tick]
            rfl
          exact nextForward_of_pure stopped (fun _ h => nomatch h) none
        | some next =>
          have ticked : nextRunAt cron (some (.obj fields)) now = .ok (.ok (some next)) := by
            simp only [nextRunAt, named, expr, tick]
            rfl
          refine nextForward_of_pure ticked ?_ none
          rintro _ ⟨⟩
          exact ticks _ _ _ tick

theorem exponential_mono (base : ℕ) {a b : ℕ} (later : a ≤ b) :
    exponential base a ≤ exponential base b := by
  have power : 2 ^ min (a - 1) 63 ≤ 2 ^ min (b - 1) 63 :=
    Nat.pow_le_pow_right (by decide) (by omega)
  exact min_le_min_right _ (Nat.mul_le_mul_left base power)

/-- Below the limit of a signed number the delay is what it should be, and else it counts back. -/
theorem retry_delta (r : Retry) : if r.delay < 2 ^ 63 then
    wrapI64 (backoffMs r.attempts r.config.backoffBaseMs r.jitter) = r.delay else
    wrapI64 (backoffMs r.attempts r.config.backoffBaseMs r.jitter) < 0 := by
  unfold wrapI64 backoffMs Retry.delay
  generalize r.config.backoffBaseMs * 2 ^ min (r.attempts - 1) 63 = product
  split <;> split <;> omega

theorem retryForward_iff (r : Retry) :
    RetryForward r ↔ r.now.nanos + (r.delay : ℤ) * 1000000 ≤ maxUtc := by
  have delta := retry_delta r
  have valid := r.now.valid
  simp only [RetryForward, Retry.runAt, milliseconds, bind_ok, ensure_ok, pure_ok]
  split at delta
  · rw [delta]
    constructor
    · rintro ⟨t, ⟨_, ⟨_, -, rfl⟩, sum⟩, -⟩
      exact (addDelta_fits (by omega)).mp ⟨t, sum⟩
    · intro le
      obtain ⟨t, sum⟩ := (addDelta_fits (by omega)).mpr le
      refine ⟨t, ⟨_, ⟨(), by omega, rfl⟩, sum⟩, ?_⟩
      rw [addDelta_ok] at sum
      omega
  · apply iff_of_false
    · rintro ⟨t, ⟨_, ⟨_, -, rfl⟩, sum⟩, forward⟩
      rw [addDelta_ok] at sum
      omega
    · unfold minUtc maxUtc at *
      omega

/-- The times of the queue go forward exactly where they stay within those of the date-time
library: an interval that is added to `now`, and a delay that neither saturates nor overflows.
The exponential part of a delay grows with the attempts in any case. -/
theorem job_times_forward_iff (cron : Ticks) (ticks : ∀ expr now next,
    cron expr now = some next → now.nanos < next.nanos) :
    (∀ schedule now, NextForward cron schedule now ↔ IntervalFits schedule now) ∧
      (∀ r, RetryForward r ↔ r.now.nanos + (r.delay : ℤ) * 1000000 ≤ maxUtc) ∧
      (∀ base attempt jitter, backoffMs attempt base jitter =
        min (exponential base attempt + jitter) (2 ^ 64 - 1)) ∧
      ∀ base a b, a ≤ b → exponential base a ≤ exponential base b :=
  ⟨nextForward_iff ticks, retryForward_iff, fun _ _ _ => rfl, fun base _ _ => exponential_mono base⟩

def epoch : DateTime := ⟨0, epoch_valid⟩

/-- Every expression ticks a second later, but at the end of time. -/
def secondly : Ticks := fun _ now =>
  if valid : minUtc ≤ now.nanos + 1000000000 ∧ now.nanos + 1000000000 ≤ maxUtc then
    some ⟨now.nanos + 1000000000, valid⟩
  else none

theorem job_times_forward_secondly :
    (∀ schedule now, NextForward secondly schedule now ↔ IntervalFits schedule now) ∧
      (∀ r, RetryForward r ↔ r.now.nanos + (r.delay : ℤ) * 1000000 ≤ maxUtc) ∧
      (∀ base attempt jitter, backoffMs attempt base jitter =
        min (exponential base attempt + jitter) (2 ^ 64 - 1)) ∧
      ∀ base a b, a ≤ b → exponential base a ≤ exponential base b := by
  refine job_times_forward_iff secondly fun expr now next tick => ?_
  simp only [secondly, Option.dite_none_right_eq_some, Option.some.injEq] at tick
  obtain ⟨-, rfl⟩ := tick
  exact lt_add_of_pos_right _ (by decide)

def everySeconds (secs : ℤ) : Option Json := some (.obj [("every_seconds", .num (.int secs))])

/-- A failed attempt of the default worker with room for a hundred, at the epoch. -/
def failed (attempts : ℕ) (left : (attempts : ℤ) < 100) : Retry where
  config := .withAttempts 100
  accepted := rfl
  attempts := attempts
  maxAttempts := 100
  limited := ⟨left, by decide⟩
  jitter := 0
  drawn := by decide
  now := epoch

/-- An interval beyond a duration or beyond the last time panics, as does the 43rd retry; the 64th
is a millisecond ago. -/
theorem times_run_out :
    (nextRunAt secondly (everySeconds (2 ^ 63 - 1)) epoch = .error .secondsOutOfBounds ∧
      nextRunAt secondly (everySeconds 8210266876800) epoch = .error .additionOverflowed ∧
      ¬ NextForward secondly (everySeconds 8210266876800) epoch) ∧
    (failed 43 (by decide)).runAt = .error .additionOverflowed ∧
      (failed 64 (by decide)).runAt = .ok ⟨-1000000, by decide⟩ ∧
      ¬ RetryForward (failed 43 (by decide)) ∧ ¬ RetryForward (failed 64 (by decide)) := by
  have long : nextRunAt secondly (everySeconds 8210266876800) epoch = .error .additionOverflowed := by
    decide +kernel
  have late : (failed 43 (by decide)).runAt = .error .additionOverflowed := by decide +kernel
  have past : (failed 64 (by decide)).runAt = .ok ⟨-1000000, by decide⟩ := by decide +kernel
  refine ⟨⟨by decide +kernel, long, ?_⟩, late, past, ?_, ?_⟩
  · rintro ⟨result, given, -⟩
    rw [long] at given
    cases given
  · rintro ⟨t, given, -⟩
    rw [late] at given
    cases given
  · rintro ⟨t, given, forward⟩
    rw [past] at given
    cases given
    exact absurd forward (by decide)

end JobTimes
