import BikesNest.Details
import BikesNest.Effects

/-! Whether a listing is open at an instant, as the database function and the domain answer it. Both
read the instant on the wall clock of the listing; that conversion is a parameter that they share. -/

namespace OpenNow

open Parking Schema Outcome Proposal Publishing Contribution Details Operations Effects

instance : LE NaiveTime := ⟨fun t u => t.secs < u.secs ∨ t.secs = u.secs ∧ t.frac ≤ u.frac⟩

instance : LT NaiveTime := ⟨fun t u => t.secs < u.secs ∨ t.secs = u.secs ∧ t.frac < u.frac⟩

instance : DecidableLE NaiveTime := fun t u =>
  inferInstanceAs (Decidable (t.secs < u.secs ∨ t.secs = u.secs ∧ t.frac ≤ u.frac))

instance : DecidableLT NaiveTime := fun t u =>
  inferInstanceAs (Decidable (t.secs < u.secs ∨ t.secs = u.secs ∧ t.frac < u.frac))

/-- A date, in days since the first of January 1970, and a time of that day. -/
structure LocalTime where
  date : ℤ
  time : NaiveTime
  regular : time.frac < 1000000000

/-- The wall clock of a zone at an instant. -/
abbrev Zones := String → Instant → LocalTime

/-- `TIME` counts microseconds, and a time read from it wraps at the end of the day. -/
structure Counts (env : Env) : Prop where
  toSql : ∀ t, env.timeToSql t = t.secs * 1000000 + t.frac / 1000
  secs : ∀ us, (env.timeOfSql us).secs = us / 1000000 % 86400
  frac : ∀ us, (env.timeOfSql us).frac = us % 1000000 * 1000

/-- The ISO day of a date, from Monday on. -/
def isoDay (date : ℤ) : ℕ := ((date + 3) % 7 + 1).toNat

/-! The database. -/

/-- The condition of `bikesnest_is_open_at` on a row. -/
def HoursRow.covers (r : HoursRow) (dow prevDow localTime : ℕ) : Prop :=
  (r.dayOfWeek = dow ∧ (r.allDay = true ∨ (r.opensAt ≤ localTime ∧ localTime < r.closesAt) ∨
      (r.closesAt ≤ r.opensAt ∧ r.opensAt ≤ localTime))) ∨
    (r.dayOfWeek = prevDow ∧ ¬ r.allDay = true ∧ r.closesAt ≤ r.opensAt ∧ localTime < r.closesAt)

instance (r : HoursRow) (dow prevDow localTime : ℕ) :
    Decidable (HoursRow.covers r dow prevDow localTime) :=
  inferInstanceAs (Decidable ((_ ∧ (_ ∨ (_ ∧ _) ∨ (_ ∧ _))) ∨ (_ ∧ ¬ _ ∧ _ ∧ _)))

/-- A row covers the local time. -/
def HoursRow.coversAt (env : Env) (now : LocalTime) (r : HoursRow) : Prop :=
  HoursRow.covers r (isoDay now.date) (isoDay (now.date - 1)) (env.timeToSql now.time)

instance (env : Env) (now : LocalTime) (r : HoursRow) : Decidable (HoursRow.coversAt env now r) :=
  inferInstanceAs (Decidable (HoursRow.covers r _ _ _))

/-- `bikesnest_is_open_at`. -/
def isOpenAt (env : Env) (zones : Zones) (s : Store) (id : LocationId) (tz : String) (at' : Instant) :
    Bool :=
  (hoursOf s id).any fun r => decide (HoursRow.coversAt env (zones tz at') r)

/-! The domain. -/

inductive OpenStatus where
  | opened
  | closed
  | unknown
  deriving DecidableEq

def TimeRange.overnight (range : TimeRange) : Bool :=
  !range.allDay && decide (range.closesAt ≤ range.opensAt)

/-- One round of the loop of `status_at`: whether it returns `Open`. -/
def opensFor (today yesterday : ℕ) (t : NaiveTime) (row : ℕ × TimeRange) : Bool :=
  let (day, range) := row
  let overnight := TimeRange.overnight range
  (decide (day = today) && (range.allDay || overnight && decide (range.opensAt ≤ t) ||
      !overnight && decide (range.opensAt ≤ t) && decide (t < range.closesAt))) ||
    decide (day = yesterday) && overnight && decide (t < range.closesAt)

def statusAt (zones : Zones) (hours : OpeningHours) (at' : Instant) (tz : Tz) : OpenStatus :=
  match hours with
  | .unknown => .unknown
  | .weekly rows =>
    let now := zones tz.name at'
    let today := isoDay now.date
    let yesterday := if today = 1 then 7 else today - 1
    if rows.any (opensFor today yesterday now.time) then .opened else .closed

/-! Where they differ: a row that opens at 24:00:00, which is read back as 00:00:00. -/

/-- The row opens at the very end of its day. -/
def HoursRow.late (r : HoursRow) : Prop := r.allDay = false ∧ r.opensAt = lastTime

instance (r : HoursRow) : Decidable (HoursRow.late r) := inferInstanceAs (Decidable (_ ∧ _))

/-- At the local time some other row is open, or the late rows of the day before reach it exactly
when those of its own day would, from midnight on. -/
def Level (env : Env) (rows : List HoursRow) (now : LocalTime) : Prop :=
  (∃ r ∈ rows, ¬ HoursRow.late r ∧ HoursRow.coversAt env now r) ∨
    ((∃ r ∈ rows, HoursRow.late r ∧ r.dayOfWeek = isoDay (now.date - 1) ∧
        env.timeToSql now.time < r.closesAt) ↔
      ∃ r ∈ rows, HoursRow.late r ∧ r.dayOfWeek = isoDay now.date ∧
        (env.timeToSql now.time < r.closesAt ∨ r.closesAt = 0))

variable {env : Env} {now : LocalTime} {r : HoursRow}

theorem isoDay_before (date : ℤ) :
    isoDay (date - 1) = if isoDay date = 1 then 7 else isoDay date - 1 := by
  unfold isoDay
  split <;> omega

theorem local_lt (counts : Counts env) (now : LocalTime) : env.timeToSql now.time < lastTime := by
  have := now.time.valid.1
  have := now.regular
  rw [counts.toSql]
  unfold lastTime
  omega

section Order

variable (counts : Counts env) (o c : ℕ)
include counts

theorem ofSql_le_local : env.timeOfSql o ≤ now.time ↔ o % lastTime ≤ env.timeToSql now.time := by
  change (_ < _ ∨ _ = _ ∧ _ ≤ _) ↔ _
  have := now.regular
  rw [counts.secs, counts.frac, counts.toSql]
  unfold lastTime
  omega

theorem local_lt_ofSql : now.time < env.timeOfSql c ↔ env.timeToSql now.time < c % lastTime := by
  change (_ < _ ∨ _ = _ ∧ _ < _) ↔ _
  have := now.regular
  rw [counts.secs, counts.frac, counts.toSql]
  unfold lastTime
  omega

theorem ofSql_le_ofSql : env.timeOfSql c ≤ env.timeOfSql o ↔ c % lastTime ≤ o % lastTime := by
  change (_ < _ ∨ _ = _ ∧ _ ≤ _) ↔ _
  rw [counts.secs, counts.frac, counts.secs, counts.frac]
  unfold lastTime
  omega

end Order

/-- The row as `to_domain` reads it. -/
def readRow (env : Env) (r : HoursRow) : ℕ × TimeRange :=
  (r.dayOfWeek, ⟨env.timeOfSql r.opensAt, env.timeOfSql r.closesAt, r.allDay⟩)

def opensNow (env : Env) (now : LocalTime) (r : HoursRow) : Bool :=
  opensFor (isoDay now.date) (isoDay (now.date - 1)) now.time (readRow env r)

theorem opensNow_iff (counts : Counts env) : opensNow env now r = true ↔
    (r.dayOfWeek = isoDay now.date ∧ (r.allDay = true ∨
      r.opensAt % lastTime ≤ env.timeToSql now.time ∧
        (r.closesAt % lastTime ≤ r.opensAt % lastTime ∨
          env.timeToSql now.time < r.closesAt % lastTime))) ∨
      (r.dayOfWeek = isoDay (now.date - 1) ∧ ¬ r.allDay = true ∧
        r.closesAt % lastTime ≤ r.opensAt % lastTime ∧
          env.timeToSql now.time < r.closesAt % lastTime) := by
  cases h : r.allDay with
  | true => simp [opensNow, opensFor, readRow, TimeRange.overnight, h]
  | false =>
    by_cases overnight : r.closesAt % lastTime ≤ r.opensAt % lastTime
    · simp [opensNow, opensFor, readRow, TimeRange.overnight, h, ofSql_le_local counts,
        local_lt_ofSql counts, ofSql_le_ofSql counts, overnight]
    · simp [opensNow, opensFor, readRow, TimeRange.overnight, h, ofSql_le_local counts,
        local_lt_ofSql counts, ofSql_le_ofSql counts, overnight]

section Rows

variable (counts : Counts env) (inDay : r.inDay)
include counts inDay

/-- A row that does not open at the end of its day is read the same way by both. -/
theorem opensNow_of_early (early : ¬ HoursRow.late r) :
    opensNow env now r = true ↔ HoursRow.coversAt env now r := by
  rw [opensNow_iff counts]
  unfold HoursRow.coversAt HoursRow.covers
  have before := local_lt counts now
  unfold HoursRow.inDay at inDay
  unfold HoursRow.late at early
  unfold lastTime at *
  cases h : r.allDay with
  | true => simp
  | false =>
    have opens : r.opensAt ≠ 86400000000 := fun last => early ⟨h, last⟩
    simp only [Bool.false_eq_true, not_false_eq_true, false_or, true_and]
    omega

theorem covers_of_late (late : HoursRow.late r) : HoursRow.coversAt env now r ↔
    r.dayOfWeek = isoDay (now.date - 1) ∧ env.timeToSql now.time < r.closesAt := by
  unfold HoursRow.coversAt HoursRow.covers
  have before := local_lt counts now
  obtain ⟨notAllDay, opens⟩ := late
  have closes : r.closesAt ≤ r.opensAt := by
    rw [opens]
    exact inDay.2
  rw [← opens] at before
  rw [notAllDay]
  constructor
  · rintro (⟨-, h | h | h⟩ | ⟨day, -, -, soon⟩)
    · cases h
    · exact absurd h.1 (not_le.mpr before)
    · exact absurd h.2 (not_le.mpr before)
    · exact ⟨day, soon⟩
  · rintro ⟨day, soon⟩
    exact .inr ⟨day, Bool.false_ne_true, closes, soon⟩

theorem opensNow_of_late (late : HoursRow.late r) : opensNow env now r = true ↔
    r.dayOfWeek = isoDay now.date ∧ (env.timeToSql now.time < r.closesAt ∨ r.closesAt = 0) := by
  rw [opensNow_iff counts]
  have before := local_lt counts now
  obtain ⟨notAllDay, opens⟩ := late
  unfold HoursRow.inDay at inDay
  rw [notAllDay, opens]
  unfold lastTime at *
  simp only [Bool.false_eq_true, not_false_eq_true, false_or, true_and]
  omega

end Rows

theorem or_iff_or_iff {a b c : Prop} : ((a ∨ b) ↔ (a ∨ c)) ↔ a ∨ (b ↔ c) := by
  by_cases h : a <;> simp [h]

/-- The rows are open, by the database and by the domain, for the same reason or for neither. -/
theorem rows_agree_iff (counts : Counts env) {rows : List HoursRow} (inDay : ∀ r ∈ rows, r.inDay) :
    ((∃ r ∈ rows, HoursRow.coversAt env now r) ↔ ∃ r ∈ rows, opensNow env now r = true) ↔
      Level env rows now := by
  have database : (∃ r ∈ rows, HoursRow.coversAt env now r) ↔
      (∃ r ∈ rows, ¬ HoursRow.late r ∧ HoursRow.coversAt env now r) ∨
        ∃ r ∈ rows, HoursRow.late r ∧ r.dayOfWeek = isoDay (now.date - 1) ∧
          env.timeToSql now.time < r.closesAt := by
    rw [← exists_or]
    refine exists_congr fun r => ?_
    rw [← and_or_left]
    refine and_congr_right fun hr => ?_
    by_cases late : HoursRow.late r
    · rw [covers_of_late counts (inDay r hr) late, and_iff_right late]
      exact ⟨.inr, fun h => h.resolve_left fun h => h.1 late⟩
    · exact ⟨fun h => .inl ⟨late, h⟩, fun h => (h.resolve_right fun h => late h.1).2⟩
  have domain : (∃ r ∈ rows, opensNow env now r = true) ↔
      (∃ r ∈ rows, ¬ HoursRow.late r ∧ HoursRow.coversAt env now r) ∨
        ∃ r ∈ rows, HoursRow.late r ∧ r.dayOfWeek = isoDay now.date ∧
          (env.timeToSql now.time < r.closesAt ∨ r.closesAt = 0) := by
    rw [← exists_or]
    refine exists_congr fun r => ?_
    rw [← and_or_left]
    refine and_congr_right fun hr => ?_
    by_cases late : HoursRow.late r
    · rw [opensNow_of_late counts (inDay r hr) late, and_iff_right late]
      exact ⟨.inr, fun h => h.resolve_left fun h => h.1 late⟩
    · rw [opensNow_of_early counts (inDay r hr) late]
      exact ⟨fun h => .inl ⟨late, h⟩, fun h => (h.resolve_right fun h => late h.1).2⟩
  rw [database, domain, Level]
  exact or_iff_or_iff

/-- Without late rows nothing is in the way. -/
theorem level_of_early {rows : List HoursRow} (early : ∀ r ∈ rows, ¬ HoursRow.late r) :
    Level env rows now := by
  refine .inr (iff_of_false ?_ ?_)
  · rintro ⟨r, hr, late, -⟩
    exact early r hr late
  · rintro ⟨r, hr, late, -⟩
    exact early r hr late

/-! The rows of a listing are those of one value of opening hours, as its flag is. -/

/-- The hours of a row were written together. -/
def Written (env : Env) (s : Store) (row : LocationRow) : Prop :=
  ∃ hours : OpeningHours, row.hoursUnknown = hours.isUnknown ∧
    hoursOf s row.id = hours.rows.map (hoursRow env row.id) ∧ ∀ r ∈ hoursOf s row.id, r.inDay

def HoursWritten (env : Env) (s : Store) : Prop :=
  ∀ l row, s.locations.find l = some row → Written env s row

theorem written_of_writeHours {s t u : Store} {id : LocationId} {hours : OpeningHours}
    {row : LocationRow} (h : writeHours env s id hours = .ok t) (same : u.hours = t.hours)
    (ofRow : row.id = id) (unknown : row.hoursUnknown = hours.isUnknown) : Written env u row := by
  have stored : hoursOf u row.id = hours.rows.map (hoursRow env row.id) := by
    rw [hoursOf_congr same, hoursOf_writeHours h, ofRow, if_pos rfl]
  obtain ⟨inDay, -⟩ := writeHours_ok.mp h
  refine ⟨hours, unknown, stored, fun r hr => inDay r ?_⟩
  rwa [stored, ofRow] at hr

theorem Written.of_same {s t : Store} {row row' : LocationRow} (written : Written env s row)
    (id : row'.id = row.id) (unknown : row'.hoursUnknown = row.hoursUnknown)
    (hours : hoursOf t row.id = hoursOf s row.id) : Written env t row' := by
  obtain ⟨value, flag, stored, inDay⟩ := written
  refine ⟨value, unknown.trans flag, ?_, ?_⟩
  · rw [id, hours, stored]
  · rw [id, hours]
    exact inDay

theorem HoursWritten.kept {s t : Store} (written : HoursWritten env s) (h : Kept s t) :
    HoursWritten env t := by
  intro l row found
  obtain ⟨forget, hf⟩ := h.location l
  rw [hf, Option.map_eq_some_iff] at found
  obtain ⟨old, there, rfl⟩ := found
  exact (written l old there).of_same rfl rfl (hoursOf_congr h.hours _)

theorem HoursWritten.rewrites {s t : Store} {row : LocationRow} {snapshot : Json}
    (written : HoursWritten env s) (h : Rewrites s t row snapshot) (new : Written env t row) :
    HoursWritten env t := by
  intro l loc found
  rw [h.location] at found
  by_cases hl : l = row.id
  · rw [if_pos hl] at found
    cases found
    exact new
  · rw [if_neg hl] at found
    obtain rfl : loc.id = l := (Table.find_eq_some.mp found).2
    exact (written _ loc found).of_same rfl rfl (h.hours _ hl)

/-- An edit sets the flag with the rows. -/
theorem changedRow_hours {loc row : LocationRow} {edit : ParkingEdit}
    (h : changedRow loc (.editDetails edit) = some row) :
    row.hoursUnknown = edit.hours.isUnknown := by
  simp only [changedRow, Option.ite_none_right_eq_some, Option.some.injEq] at h
  rw [← h.2]

theorem written_published {s t : Store} {id : ProposalId} {moderator : UserId}
    {applied : ProposalApplication} {prop : ProposalRow} {loc row : LocationRow} {parts : Store}
    (written : HoursWritten env s)
    (h : Published env s t id moderator applied prop loc row parts) : Written env t row := by
  have hid := changedRow_id h.changed
  have changed := h.changed
  have parted := h.written
  cases applied with
  | editDetails edit =>
    simp only [writeParts, bind_ok, mapError_ok, pure_ok] at parted
    obtain ⟨filled, hf, rfl⟩ := parted
    refine written_of_writeHours hf (h.hours.trans ?_) hid (changedRow_hours changed)
    simp only [writeSecurity_hours]
  | moveLocation | changeExistence =>
    simp only [writeParts, pure_ok] at parted
    simp only [changedRow, Option.some.injEq] at changed
    refine (written _ loc h.located).of_same hid (by rw [← changed]) ?_
    rw [hoursOf_congr h.hours, ← parted]
    rfl

theorem hoursWritten_perform {s t : Store} {op : Op} (written : HoursWritten env s)
    (h : perform env s op = .ok t) : HoursWritten env t := by
  cases perform_effect h with
  | kept kept => exact written.kept kept
  | created tz parts created =>
    refine written.rewrites (created_rewrites created) ?_
    exact written_of_writeHours created.written created.parts_eq.1 rfl rfl
  | edited loc row point tz parts edited =>
    refine written.rewrites (edited_rewrites edited) ?_
    have hid := (changedRow_id edited.changed).trans (Table.find_eq_some.mp edited.found).2
    exact written_of_writeHours edited.written edited.parts_eq.1 hid
      (changedRow_hours edited.changed)
  | moderated old moderated =>
    refine written.rewrites (moderated_rewrites moderated) ?_
    have hours : t.hours = s.hours := by rw [moderated.outcome]; rfl
    exact (written _ old moderated.found).of_same rfl rfl (hoursOf_congr hours _)
  | approved prop loc row parts published =>
    exact written.rewrites (published_rewrites published) (written_published written published)
  | @voted id voter vote _ applied prop loc row parts merged published =>
    have voted := written.kept (kept_upsertVote s id voter vote)
    exact voted.rewrites (published_rewrites published) (written_published voted published)

theorem run_written (ops : List Op) : HoursWritten env (run env empty ops) := by
  refine run_invariant (fun s t op written _ h => hoursWritten_perform written h)
    (along_true empty ops) fun l row found => ?_
  cases found

theorem isOpenAt_iff (zones : Zones) (s : Store) (id : LocationId) (tz : String) (instant : Instant) :
    isOpenAt env zones s id tz instant = true ↔
      ∃ r ∈ hoursOf s id, HoursRow.coversAt env (zones tz instant) r := by
  simp only [isOpenAt, List.any_eq_true, decide_eq_true_eq]

theorem statusAt_weekly (zones : Zones) (rows : List HoursRow) (instant : Instant) (tz : Tz) :
    statusAt zones (.weekly (rows.map (readRow env))) instant tz = .opened ↔
      ∃ r ∈ rows, opensNow env (zones tz.name instant) r = true := by
  simp only [statusAt, ← isoDay_before, List.any_map, ite_eq_left_iff, reduceCtorEq, imp_false,
    not_not, List.any_eq_true, Function.comp_apply]
  rfl

/-- The hours that `to_domain` reads are those of the row and its rows of hours. -/
theorem toDomain_hours {row : LocationRow} {hours : List HoursRow} {security : List SecurityRow}
    {parking : ParkingLocation} (h : toDomain env row hours security = .ok parking) :
    parking.hours = openingOf env row hours := by
  simp only [toDomain, bind_ok] at h
  obtain ⟨_, -, _, -, _, -, _, -, _, -, _, -, h⟩ := h
  split at h
  · simp at h
  · split at h
    · simp at h
    · simp only [pure_ok] at h
      exact h ▸ rfl

/-- The database and the domain agree on a stored listing at an instant exactly when the rows that
open at the end of their day make no difference there. -/
theorem open_now_agrees_iff (env : Env) (counts : Counts env) (zones : Zones) (ops : List Op)
    {l : LocationId} {row : LocationRow} {parking : ParkingLocation}
    (found : (run env empty ops).locations.find l = some row)
    (read : toDomain env row (readHours (run env empty ops) l)
      (readSecurity (run env empty ops) l) = .ok parking)
    (tz : Tz) (instant : Instant) :
    (isOpenAt env zones (run env empty ops) l tz.name instant = true ↔
        statusAt zones parking.hours instant tz = .opened) ↔
      Level env (hoursOf (run env empty ops) l) (zones tz.name instant) := by
  obtain ⟨hours, unknown, stored, inDay⟩ := run_written ops l row found
  obtain rfl : row.id = l := (Table.find_eq_some.mp found).2
  rw [isOpenAt_iff, toDomain_hours read, ← rows_agree_iff counts inDay]
  refine iff_congr Iff.rfl ?_
  unfold openingOf
  cases hours with
  | unknown =>
    rw [unknown, stored]
    simp [OpeningHours.isUnknown, OpeningHours.rows, statusAt]
  | weekly rows =>
    have known : row.hoursUnknown = false := unknown
    rw [if_neg (by rw [known]; exact Bool.false_ne_true)]
    refine (statusAt_weekly zones _ instant tz).trans (exists_congr fun r => and_congr_left fun _ => ?_)
    exact (List.perm_insertionSort hoursBefore _).mem_iff

/-- Open from Monday 22:00 to 02:00 and all of Saturday. -/
def evenings : OpeningHours :=
  .weekly [(1, ⟨⟨79200, 0, by decide⟩, ⟨7200, 0, by decide⟩, false⟩), (6, .allDayRange)]

/-- Open on Mondays from 23:59:60 to 10:00. -/
def lastSecondOn : OpeningHours :=
  .weekly [(1, ⟨⟨86399, 1000000000, by decide⟩, ⟨36000, 0, by decide⟩, false⟩)]

def created (hours : OpeningHours) : List Op :=
  enlist 1 ++ [.create 1 { sampleRack with hours := hours } 1]

def rackRow (hours : OpeningHours) : LocationRow :=
  newRow 1 { sampleRack with hours := hours } ⟨"Europe/Berlin"⟩ 1

/-- Monday the fifth of January 2026, at nine. -/
def mondayMorning : Zones := fun _ _ => ⟨20458, ⟨32400, 0, by decide⟩, by decide⟩

theorem clock_counts : Counts Clock.env := ⟨fun _ => rfl, fun _ => rfl, fun _ => rfl⟩

/-- The listing as it is read from the database. -/
def readBack (hours : OpeningHours) : Except ReaderError ParkingLocation :=
  toDomain Clock.env (rackRow hours) (readHours (run Clock.env empty (created hours)) 1)
    (readSecurity (run Clock.env empty (created hours)) 1)

theorem exists_of_isOk {ε α : Type} {x : Except ε α} (h : x.isOk = true) : ∃ a, x = .ok a := by
  cases x with
  | ok a => exact ⟨a, rfl⟩
  | error e => cases h

theorem open_now_agrees_evenings : ∃ parking, readBack evenings = .ok parking ∧
    ((isOpenAt Clock.env mondayMorning (run Clock.env empty (created evenings)) 1 "Europe/Berlin" 0 =
        true ↔ statusAt mondayMorning parking.hours 0 ⟨"Europe/Berlin"⟩ = .opened) ↔
      Level Clock.env (hoursOf (run Clock.env empty (created evenings)) 1)
        (mondayMorning "Europe/Berlin" 0)) := by
  have reads : (readBack evenings).isOk = true := by decide +kernel
  obtain ⟨parking, read⟩ := exists_of_isOk reads
  have found : (run Clock.env empty (created evenings)).locations.find 1 = some (rackRow evenings) :=
    by decide +kernel
  exact ⟨parking, read, open_now_agrees_iff Clock.env clock_counts mondayMorning (created evenings)
    found read ⟨"Europe/Berlin"⟩ 0⟩

/-- On Monday morning the domain takes the row for one that opened at midnight, and the database
for one that will open. -/
theorem late_opening_differs : ∃ parking, readBack lastSecondOn = .ok parking ∧
    isOpenAt Clock.env mondayMorning (run Clock.env empty (created lastSecondOn)) 1 "Europe/Berlin" 0 =
      false ∧
    statusAt mondayMorning parking.hours 0 ⟨"Europe/Berlin"⟩ = .opened := by
  have reads : (readBack lastSecondOn).isOk = true := by decide +kernel
  obtain ⟨parking, read⟩ := exists_of_isOk reads
  refine ⟨parking, read, by decide +kernel, ?_⟩
  rw [toDomain_hours read]
  decide +kernel

end OpenNow
