import BikesNest.Outcome

/-! Times and durations of the date-time library, in nanoseconds. A time is one of a bounded range;
a duration is made from a number of seconds or milliseconds and added to a time, and both steps
panic out of their range. -/

namespace DateTimes

open Outcome

/-- The first and the last time of `DateTime<Utc>`, in nanoseconds of the epoch. -/
def minUtc : ℤ := -8334601228800 * 1000000000
def maxUtc : ℤ := 8210266876800 * 1000000000 - 1

def day : ℤ := 86400 * 1000000000

structure DateTime where
  nanos : ℤ
  valid : minUtc ≤ nanos ∧ nanos ≤ maxUtc
  deriving DecidableEq

theorem epoch_valid : minUtc ≤ 0 ∧ 0 ≤ maxUtc := by decide

inductive Panic where
  | secondsOutOfBounds
  | millisecondsOutOfBounds
  | additionOverflowed
  deriving DecidableEq

/-- `Duration::seconds`, whose limit is that of the milliseconds in a signed 64-bit number. -/
def seconds (secs : ℤ) : Except Panic ℤ := do
  ensure (-9223372036854775 ≤ secs ∧ secs ≤ 9223372036854775) .secondsOutOfBounds
  pure (secs * 1000000000)

/-- `Duration::milliseconds`; the least number has no opposite. -/
def milliseconds (ms : ℤ) : Except Panic ℤ := do
  ensure (ms ≠ -2 ^ 63) .millisecondsOutOfBounds
  pure (ms * 1000000)

/-- `DateTime + TimeDelta` -/
def addDelta (t : DateTime) (delta : ℤ) : Except Panic DateTime :=
  if valid : minUtc ≤ t.nanos + delta ∧ t.nanos + delta ≤ maxUtc then .ok ⟨t.nanos + delta, valid⟩
  else .error .additionOverflowed

/-- `num_days`, the whole days towards zero. -/
def numDays (delta : ℤ) : ℤ := delta.tdiv day

theorem addDelta_ok {t t' : DateTime} {delta : ℤ} : addDelta t delta = .ok t' ↔
    t'.nanos = t.nanos + delta := by
  have valid := t'.valid
  unfold addDelta
  split
  · rw [Except.ok.injEq]
    constructor
    · rintro rfl
      rfl
    · intro eq
      cases t'
      simp only at eq
      subst eq
      rfl
  · rename_i outside
    constructor
    · intro h
      cases h
    · intro eq
      exact absurd (eq ▸ valid) outside

theorem addDelta_fits {t : DateTime} {delta : ℤ} (forward : 0 ≤ delta) :
    (∃ t', addDelta t delta = .ok t') ↔ t.nanos + delta ≤ maxUtc := by
  have valid := t.valid
  constructor
  · rintro ⟨t', h⟩
    have := t'.valid
    rw [addDelta_ok] at h
    omega
  · intro fits
    exact ⟨⟨t.nanos + delta, by omega⟩, addDelta_ok.mpr rfl⟩

theorem numDays_of_nonneg {delta : ℤ} (h : 0 ≤ delta) : numDays delta = delta / day :=
  Int.tdiv_eq_ediv_of_nonneg h

/-- Of a negative duration the days are counted up towards zero. -/
theorem numDays_of_neg {delta : ℤ} (h : delta < 0) : numDays delta = -(-delta / day) := by
  rw [← numDays_of_nonneg (by omega), numDays, numDays, Int.neg_tdiv, neg_neg]

end DateTimes
