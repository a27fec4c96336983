import BikesNest.OpenNow
import BikesNest.SnapshotFidelity
import BikesNest.TimeLinks

/-! The opening hours of the edit form: five text fields for each day of the week, the parser
that turns a posted week into opening hours, and the pre-fill that shows stored hours as such
a week. The fields hold hours and minutes; the parser also takes seconds. -/

namespace HoursForm

open Parking Outcome Schema Details OpenNow
open Operations (run)

inductive DayState where
  | unknown | closed | allDay | ranges
  deriving DecidableEq

def DayState.asCode : DayState → String
  | .unknown => "unknown"
  | .closed => "closed"
  | .allDay => "all_day"
  | .ranges => "ranges"

def DayState.fromCode (raw : String) : DayState :=
  if trim raw = "closed" then .closed
  else if trim raw = "all_day" then .allDay
  else if trim raw = "ranges" then .ranges
  else .unknown

structure DayFields where
  state : String
  r1Open : String
  r1Close : String
  r2Open : String
  r2Close : String
  deriving DecidableEq

def DayFields.dayState (f : DayFields) : DayState := .fromCode f.state

structure HoursError where
  day : ℕ
  key : String
  deriving DecidableEq

def hoursInvalidRange : String := "form.hours.invalid_range"
def hoursOverlap : String := "form.hours.overlap"

/-- The date-time library's readers of `%H:%M` and `%H:%M:%S`. -/
structure FormTimes where
  hourMinute : String → Option NaiveTime
  hourMinuteSecond : String → Option NaiveTime

def hour (t : NaiveTime) : ℕ := t.secs / 3600
def minute (t : NaiveTime) : ℕ := t.secs / 60 % 60

def timeValue (t : NaiveTime) : String :=
  String.ofList (Clock.pad 2 (hour t) ++ ':' :: Clock.pad 2 (minute t))

/-- The time with its seconds dropped. -/
def onMinute (t : NaiveTime) : NaiveTime := ⟨t.secs / 60 * 60, 0, by have := t.valid; omega⟩

/-- The documented behaviour the proofs rely on: hours and minutes of two digits are read as
such, with no seconds, and neither format has a fraction, second 60 being a leap second. -/
structure FormTimes.Lawful (times : FormTimes) : Prop where
  reads_minutes : ∀ t, times.hourMinute (timeValue t) = some (onMinute t)
  whole_seconds : ∀ s t, times.hourMinute s = some t ∨ times.hourMinuteSecond s = some t →
    t.frac = 0 ∨ t.frac = 1000000000

def parseTime (times : FormTimes) (raw : String) : Option NaiveTime :=
  let s := trim raw
  if s = "" then none else (times.hourMinute s).or (times.hourMinuteSecond s)

/-- The minutes of a range as two half-open segments of the local day; a range that closes at
or before it opens runs past midnight. -/
def segments (r : TimeRange) : List (ℕ × ℕ) :=
  if r.allDay then [(0, 24 * 60), (0, 0)]
  else
    let opens := hour r.opensAt * 60 + minute r.opensAt
    let closes := hour r.closesAt * 60 + minute r.closesAt
    if opens < closes then [(opens, closes), (0, 0)] else [(opens, 24 * 60), (0, closes)]

def rangesOverlap (a b : TimeRange) : Bool :=
  (segments a).any fun x => (segments b).any fun y => decide (x.1 < y.2 ∧ y.1 < x.2)

def overlapping : List TimeRange → Bool
  | [a, b] => rangesOverlap a b
  | _ => false

/-- The ranges of a day's pairs of fields, a pair left empty being skipped. -/
def rangesOf (times : FormTimes) (invalid : HoursError) :
    List (String × String) → Except HoursError (List TimeRange)
  | [] => pure []
  | (opens, closes) :: rest =>
    if opens = "" ∧ closes = "" then rangesOf times invalid rest
    else do
      let o ← orFail (parseTime times opens) invalid
      let c ← orFail (parseTime times closes) invalid
      ensure (o ≠ c) invalid
      let ranges ← rangesOf times invalid rest
      pure (⟨o, c, false⟩ :: ranges)

def parseDay (times : FormTimes) (day : ℕ) (f : DayFields) : Except HoursError (List TimeRange) :=
  match f.dayState with
  | .unknown | .closed => pure []
  | .allDay => pure [.allDayRange]
  | .ranges => do
    let ranges ← rangesOf times ⟨day, hoursInvalidRange⟩
      [(trim f.r1Open, trim f.r1Close), (trim f.r2Open, trim f.r2Close)]
    ensure (ranges ≠ []) ⟨day, hoursInvalidRange⟩
    ensure (overlapping ranges = false) ⟨day, hoursOverlap⟩
    pure ranges

/-- The rows of the days from `day` on. -/
def parseDays (times : FormTimes) : ℕ → List DayFields → Except HoursError (List (ℕ × TimeRange))
  | _, [] => pure []
  | day, f :: fields => do
    let ranges ← parseDay times day f
    let rows ← parseDays times (day + 1) fields
    pure (ranges.map (day, ·) ++ rows)

/-- `parse_hours`, of the seven days from Monday on. -/
def parseHours (times : FormTimes) (fields : List.Vector DayFields 7) :
    Except HoursError OpeningHours :=
  if fields.toList.all fun f => decide (f.dayState = .unknown) then pure .unknown
  else do
    let rows ← parseDays times 1 fields.toList
    pure (.weekly rows)

/-- One day of `rows_by_day`. -/
def rangesOn (rows : List (ℕ × TimeRange)) (day : ℕ) : List TimeRange :=
  (rows.filter fun r => decide (r.1 = day)).map Prod.snd

def stateOnly (state : DayState) : DayFields := ⟨state.asCode, "", "", "", ""⟩

/-- A day of the pre-fill; a third range is not shown. -/
def dayFields (ranges : List TimeRange) : DayFields :=
  if ranges.any TimeRange.allDay then stateOnly .allDay
  else match ranges with
    | [] => stateOnly .closed
    | [r] => ⟨DayState.ranges.asCode, timeValue r.opensAt, timeValue r.closesAt, "", ""⟩
    | r :: q :: _ => ⟨DayState.ranges.asCode, timeValue r.opensAt, timeValue r.closesAt,
        timeValue q.opensAt, timeValue q.closesAt⟩

def hoursFieldsFrom (hours : OpeningHours) : List.Vector DayFields 7 :=
  match hours with
  | .unknown => .replicate 7 (stateOnly .unknown)
  | .weekly rows => ⟨(List.range' 1 7).map fun day => dayFields (rangesOn rows day), by simp⟩

@[simp] theorem dayState_stateOnly (state : DayState) : (stateOnly state).dayState = state := by
  cases state <;> decide

/-! ### Reading rows by day -/

@[simp] theorem rangesOn_nil (day : ℕ) : rangesOn [] day = [] := rfl

theorem rangesOn_append (rows rows' : List (ℕ × TimeRange)) (day : ℕ) :
    rangesOn (rows ++ rows') day = rangesOn rows day ++ rangesOn rows' day := by
  simp [rangesOn]

theorem mem_rangesOn {rows : List (ℕ × TimeRange)} {day : ℕ} {r : TimeRange} :
    r ∈ rangesOn rows day ↔ (day, r) ∈ rows := by
  simp [rangesOn]

theorem rangesOn_eq_nil {rows : List (ℕ × TimeRange)} {day : ℕ} (other : ∀ r ∈ rows, r.1 ≠ day) :
    rangesOn rows day = [] := by
  rw [List.eq_nil_iff_forall_not_mem]
  intro r hr
  exact other _ (mem_rangesOn.mp hr) rfl

@[simp] theorem rangesOn_tagged (ranges : List TimeRange) (day : ℕ) :
    rangesOn (ranges.map (day, ·)) day = ranges := by
  simp [rangesOn, List.filter_map, Function.comp_def]

/-- Rows sorted by day begin with those of the first day. -/
theorem split_first {rows : List (ℕ × TimeRange)} {day : ℕ}
    (sorted : rows.Pairwise fun a b => a.1 ≤ b.1) (from' : ∀ r ∈ rows, day ≤ r.1) :
    rows = (rangesOn rows day).map (day, ·) ++ rows.filter fun r => decide (day < r.1) := by
  induction rows with
  | nil => rfl
  | cons row rows ih =>
    obtain ⟨first, sorted⟩ := List.pairwise_cons.mp sorted
    have rest := ih sorted fun r hr => from' r (List.mem_cons_of_mem _ hr)
    by_cases today : row.1 = day
    · have later : ¬ day < row.1 := by omega
      obtain ⟨d, r⟩ := row
      subst today
      rw [List.filter_cons_of_neg (by simp)]
      simp only [rangesOn, decide_true, List.filter_cons_of_pos, List.map_cons, List.cons_append,
        List.cons.injEq, true_and] at rest ⊢
      exact rest
    · have after : day < row.1 := by
        have := from' row List.mem_cons_self
        omega
      have none : rangesOn (row :: rows) day = [] := by
        apply rangesOn_eq_nil
        intro r hr
        rcases List.mem_cons.mp hr with rfl | hr
        · exact today
        · have := first r hr
          omega
      rw [none, List.map_nil, List.nil_append, eq_comm, List.filter_eq_self]
      intro r hr
      rcases List.mem_cons.mp hr with rfl | hr
      · exact decide_eq_true after
      · exact decide_eq_true (after.trans_le (first r hr))

/-- A parsed week is its rows in the order of the days, each day's being what its fields give. -/
theorem parseDays_ok {times : FormTimes} {fields : List DayFields} {day : ℕ}
    {rows : List (ℕ × TimeRange)} : parseDays times day fields = .ok rows ↔
      rows.Pairwise (fun a b => a.1 ≤ b.1) ∧
      (∀ r ∈ rows, day ≤ r.1 ∧ r.1 < day + fields.length) ∧
      ∀ i (h : i < fields.length),
        parseDay times (day + i) fields[i] = .ok (rangesOn rows (day + i)) := by
  induction fields generalizing day rows with
  | nil =>
    simp only [parseDays, pure_ok, List.length_nil, Nat.add_zero]
    constructor
    · rintro rfl
      simp
    · rintro ⟨-, bounds, -⟩
      rw [eq_comm, List.eq_nil_iff_forall_not_mem]
      intro r hr
      have := bounds r hr
      omega
  | cons f fields ih =>
    simp only [parseDays, bind_ok, pure_ok]
    constructor
    · rintro ⟨ranges, first, rows', rest, rfl⟩
      obtain ⟨sorted, bounds, days⟩ := ih.mp rest
      refine ⟨List.pairwise_append.mpr ⟨?_, sorted, ?_⟩, ?_, ?_⟩
      · simp [List.pairwise_iff_getElem]
      · intro a ha b hb
        obtain ⟨r, -, rfl⟩ := List.mem_map.mp ha
        have := bounds b hb
        simp only
        omega
      · intro r hr
        rw [List.length_cons]
        rcases List.mem_append.mp hr with hr | hr
        · obtain ⟨q, -, rfl⟩ := List.mem_map.mp hr
          simp only
          omega
        · have := bounds r hr
          omega
      · intro i h
        rw [rangesOn_append]
        cases i with
        | zero =>
          have rest : rangesOn rows' day = [] := by
            apply rangesOn_eq_nil
            intro r hr
            have := bounds r hr
            omega
          rw [Nat.add_zero, rangesOn_tagged, rest, List.append_nil]
          exact first
        | succ i =>
          have later := days i (by simpa using h)
          have here : rangesOn (ranges.map (day, ·)) (day + (i + 1)) = [] := by
            apply rangesOn_eq_nil
            intro r hr
            obtain ⟨q, -, rfl⟩ := List.mem_map.mp hr
            simp only
            omega
          rw [here, List.nil_append, List.getElem_cons_succ,
            show day + (i + 1) = day + 1 + i by omega]
          exact later
    · rintro ⟨sorted, bounds, days⟩
      refine ⟨rangesOn rows day, days 0 (by simp), rows.filter fun r => decide (day < r.1),
        ih.mpr ⟨sorted.sublist List.filter_sublist, ?_, ?_⟩,
        (split_first sorted fun r hr => (bounds r hr).1).symm⟩
      · intro r hr
        obtain ⟨hr, after⟩ := List.mem_filter.mp hr
        have := bounds r hr
        have := of_decide_eq_true after
        simp only [List.length_cons] at *
        omega
      · intro i h
        have later := days (i + 1) (by simpa using h)
        rw [List.getElem_cons_succ, show day + (i + 1) = day + 1 + i by omega] at later
        rw [later]
        rw [rangesOn, rangesOn, List.filter_filter]
        congr 2
        apply List.filter_congr
        intro r _
        by_cases same : r.1 = day + 1 + i
        · have after : day < r.1 := by omega
          rw [decide_eq_true same, decide_eq_true after, Bool.and_self]
        · simp [same]

/-! ### One day of the form -/

/-- What the parser makes of a day: the all-day row, or at most two ranges that are not empty
and do not overlap. -/
def Accepted (ranges : List TimeRange) : Prop :=
  ranges = [.allDayRange] ∨
    (ranges.length ≤ 2 ∧ (∀ r ∈ ranges, r.allDay = false ∧ r.opensAt ≠ r.closesAt) ∧
      overlapping ranges = false)

/-- A time as the parser reads it, at whole seconds or within a leap second. -/
def Timed (t : NaiveTime) : Prop := t.frac = 0 ∨ t.frac = 1000000000

def WholeMinute (t : NaiveTime) : Prop := t.secs % 60 = 0 ∧ t.frac = 0

instance (t : NaiveTime) : Decidable (WholeMinute t) := inferInstanceAs (Decidable (_ ∧ _))

/-- The pre-fill shows the day as it is: its times have no seconds, and the parser would take
them again. -/
def Editable (ranges : List TimeRange) : Prop :=
  (∀ r ∈ ranges, r.allDay = true ∨
    (WholeMinute r.opensAt ∧ WholeMinute r.closesAt ∧ r.opensAt ≠ r.closesAt)) ∧
  overlapping ranges = false

instance (ranges : List TimeRange) : Decidable (Editable ranges) :=
  inferInstanceAs (Decidable (_ ∧ _))

theorem onMinute_eq_self {t : NaiveTime} : onMinute t = t ↔ WholeMinute t := by
  obtain ⟨secs, frac, valid⟩ := t
  simp only [onMinute, WholeMinute, NaiveTime.mk.injEq]
  omega

theorem trim_timeValue (t : NaiveTime) : trim (timeValue t) = timeValue t := by
  apply trim_eq_self
  intro c hc
  have digits : ∀ k n, ∀ c ∈ Clock.pad k n, isWhitespace c = false := by
    intro k n
    induction k generalizing n with
    | zero => simp [Clock.pad]
    | succ k ih =>
      intro c hc
      rcases List.mem_append.mp hc with hc | hc
      · exact ih _ c hc
      · obtain rfl := List.mem_singleton.mp hc
        have small : n % 10 < 10 := Nat.mod_lt n (by decide)
        simp only [isWhitespace, Clock.digit_toNat]
        interval_cases n % 10 <;> rfl
  rw [timeValue, String.toList_ofList] at hc
  rcases List.mem_append.mp hc with hc | hc
  · exact digits _ _ c hc
  · rcases List.mem_cons.mp hc with rfl | hc
    · rfl
    · exact digits _ _ c hc

theorem timeValue_ne (t : NaiveTime) : timeValue t ≠ "" := by
  intro h
  have := congrArg (fun s => s.toList.length) h
  simp [timeValue] at this

@[simp] theorem trim_empty : trim "" = "" := rfl

theorem shown_eq {r : TimeRange} (timed : r.allDay = false) :
    (⟨onMinute r.opensAt, onMinute r.closesAt, false⟩ : TimeRange) = r ↔
      WholeMinute r.opensAt ∧ WholeMinute r.closesAt := by
  obtain ⟨opens, closes, all⟩ := r
  simp only at timed
  subst timed
  simp only [TimeRange.mk.injEq, onMinute_eq_self, and_true]

theorem parseDay_stateOnly (times : FormTimes) (day : ℕ) :
    parseDay times day (stateOnly .closed) = .ok [] ∧
      parseDay times day (stateOnly .allDay) = .ok [.allDayRange] := by
  constructor
  · rw [parseDay, dayState_stateOnly]
    rfl
  · rw [parseDay, dayState_stateOnly]
    rfl

/-- The ranges of the four fields, which are taken as they stand. -/
theorem parseDay_ranges {times : FormTimes} {day : ℕ} (r₁ r₂ : String × String)
    {ranges : List TimeRange} (plain₁ : trim r₁.1 = r₁.1 ∧ trim r₁.2 = r₁.2)
    (plain₂ : trim r₂.1 = r₂.1 ∧ trim r₂.2 = r₂.2) :
    parseDay times day ⟨DayState.ranges.asCode, r₁.1, r₁.2, r₂.1, r₂.2⟩ = .ok ranges ↔
      rangesOf times ⟨day, hoursInvalidRange⟩ [r₁, r₂] = .ok ranges ∧ ranges ≠ [] ∧
        overlapping ranges = false := by
  have state : DayFields.dayState ⟨DayState.ranges.asCode, r₁.1, r₁.2, r₂.1, r₂.2⟩ = .ranges := by
    change DayState.fromCode DayState.ranges.asCode = .ranges
    decide
  simp only [parseDay, state, plain₁.1, plain₁.2, plain₂.1, plain₂.2, bind_ok, ensure_ok, pure_ok,
    exists_and_left, exists_const]
  constructor
  · rintro ⟨ranges, read, some, apart, rfl⟩
    exact ⟨read, some, apart⟩
  · rintro ⟨read, some, apart⟩
    exact ⟨ranges, read, some, apart, rfl⟩

theorem dayFields_known (ranges : List TimeRange) : (dayFields ranges).dayState ≠ .unknown := by
  unfold dayFields
  split
  · rw [dayState_stateOnly]
    decide
  · split
    · rw [dayState_stateOnly]
      decide
    · change DayState.fromCode DayState.ranges.asCode ≠ .unknown
      decide
    · change DayState.fromCode DayState.ranges.asCode ≠ .unknown
      decide

section Forms

variable {times : FormTimes} (laws : times.Lawful)
include laws

theorem parseTime_timeValue (t : NaiveTime) :
    parseTime times (timeValue t) = some (onMinute t) := by
  rw [parseTime, trim_timeValue, if_neg (timeValue_ne t), laws.reads_minutes, Option.some_or]

theorem parseTime_timed {s : String} {t : NaiveTime} (h : parseTime times s = some t) :
    Timed t := by
  simp only [parseTime] at h
  split at h
  · simp at h
  · apply laws.whole_seconds (trim s)
    rcases Option.or_eq_some_iff.mp h with h | ⟨-, h⟩
    · exact .inl h
    · exact .inr h

theorem rangesOf_ok {invalid : HoursError} {pairs : List (String × String)}
    {ranges : List TimeRange} (h : rangesOf times invalid pairs = .ok ranges) :
    ranges.length ≤ pairs.length ∧ ∀ r ∈ ranges, r.allDay = false ∧ r.opensAt ≠ r.closesAt ∧
      Timed r.opensAt ∧ Timed r.closesAt := by
  induction pairs generalizing ranges with
  | nil =>
    simp only [rangesOf, pure_ok] at h
    subst h
    simp
  | cons pair pairs ih =>
    simp only [rangesOf] at h
    split at h
    · obtain ⟨short, each⟩ := ih h
      exact ⟨by simp only [List.length_cons]; omega, each⟩
    · simp only [bind_ok, orFail_ok, ensure_ok, pure_ok, exists_and_left, exists_const] at h
      obtain ⟨o, opens, c, closes, differ, rest, hrest, rfl⟩ := h
      obtain ⟨short, each⟩ := ih hrest
      refine ⟨by simp only [List.length_cons]; omega, fun r hr => ?_⟩
      rcases List.mem_cons.mp hr with rfl | hr
      · exact ⟨rfl, differ, parseTime_timed laws opens, parseTime_timed laws closes⟩
      · exact each r hr

theorem parseDay_ok {day : ℕ} {f : DayFields} {ranges : List TimeRange}
    (h : parseDay times day f = .ok ranges) :
    Accepted ranges ∧ ∀ r ∈ ranges, Timed r.opensAt ∧ Timed r.closesAt := by
  have none : Accepted [] := .inr ⟨by simp, by simp, rfl⟩
  unfold parseDay at h
  cases state : f.dayState with
  | unknown =>
    rw [state] at h
    obtain rfl := pure_ok.mp h
    exact ⟨none, by simp⟩
  | closed =>
    rw [state] at h
    obtain rfl := pure_ok.mp h
    exact ⟨none, by simp⟩
  | allDay =>
    rw [state] at h
    obtain rfl := pure_ok.mp h
    refine ⟨.inl rfl, fun r hr => ?_⟩
    obtain rfl := List.mem_singleton.mp hr
    exact ⟨.inl rfl, .inl rfl⟩
  | ranges =>
    rw [state] at h
    simp only [bind_ok, ensure_ok, pure_ok, exists_and_left, exists_const] at h
    obtain ⟨ranges, read, -, apart, rfl⟩ := h
    obtain ⟨short, each⟩ := rangesOf_ok laws read
    exact ⟨.inr ⟨short, fun r hr => ⟨(each r hr).1, (each r hr).2.1⟩, apart⟩,
      fun r hr => (each r hr).2.2⟩

/-- Reading back a pair of fields of the pre-fill. -/
theorem rangesOf_shown {invalid : HoursError} {r : TimeRange} {pairs : List (String × String)}
    {ranges : List TimeRange} :
    rangesOf times invalid ((timeValue r.opensAt, timeValue r.closesAt) :: pairs) = .ok ranges ↔
      onMinute r.opensAt ≠ onMinute r.closesAt ∧ ∃ rest, rangesOf times invalid pairs = .ok rest ∧
        ⟨onMinute r.opensAt, onMinute r.closesAt, false⟩ :: rest = ranges := by
  rw [rangesOf, if_neg fun empty => timeValue_ne _ empty.1]
  simp only [parseTime_timeValue laws, orFail, ok_bind, bind_ok, ensure_ok, pure_ok,
    exists_and_left, exists_const]

/-- Parsing the pre-fill of a day gives the day back exactly when the day is editable. -/
theorem parseDay_dayFields {day : ℕ} {ranges : List TimeRange}
    (shape : ranges = [.allDayRange] ∨ (ranges.length ≤ 2 ∧ ∀ r ∈ ranges, r.allDay = false)) :
    parseDay times day (dayFields ranges) = .ok ranges ↔ Editable ranges := by
  rcases shape with rfl | ⟨short, timed⟩
  · exact iff_of_true (parseDay_stateOnly times day).2 (by decide)
  have none : ranges.any TimeRange.allDay = false := by
    rw [List.any_eq_false]
    exact fun r hr => by simp [timed r hr]
  have each : ∀ r ∈ ranges, r.allDay = true ∨ (WholeMinute r.opensAt ∧ WholeMinute r.closesAt ∧
      r.opensAt ≠ r.closesAt) ↔ onMinute r.opensAt ≠ onMinute r.closesAt ∧
      (⟨onMinute r.opensAt, onMinute r.closesAt, false⟩ : TimeRange) = r := by
    intro r hr
    rw [shown_eq (timed r hr), timed r hr]
    constructor
    · rintro (h | ⟨opens, closes, differ⟩)
      · cases h
      · rw [onMinute_eq_self.mpr opens, onMinute_eq_self.mpr closes]
        exact ⟨differ, opens, closes⟩
    · rintro ⟨differ, opens, closes⟩
      rw [onMinute_eq_self.mpr opens, onMinute_eq_self.mpr closes] at differ
      exact .inr ⟨opens, closes, differ⟩
  rw [Editable, forall₂_congr each]
  simp only [dayFields, none, Bool.false_eq_true, if_false]
  match ranges, short with
  | [], _ => exact iff_of_true (parseDay_stateOnly times day).1 ⟨by simp, rfl⟩
  | [r], _ =>
    rw [parseDay_ranges (timeValue r.opensAt, timeValue r.closesAt) ("", "")
      ⟨trim_timeValue _, trim_timeValue _⟩ ⟨trim_empty, trim_empty⟩, rangesOf_shown laws]
    simp [rangesOf, overlapping]
  | [r, q], _ =>
    rw [parseDay_ranges (timeValue r.opensAt, timeValue r.closesAt)
      (timeValue q.opensAt, timeValue q.closesAt) ⟨trim_timeValue _, trim_timeValue _⟩
      ⟨trim_timeValue _, trim_timeValue _⟩, rangesOf_shown laws]
    simp only [rangesOf_shown laws]
    simp [rangesOf]
    tauto

theorem parseHours_ok {fields : List.Vector DayFields 7} {hours : OpeningHours}
    (h : parseHours times fields = .ok hours) :
    ∀ day, Accepted (rangesOn hours.rows day) ∧
      ∀ r ∈ rangesOn hours.rows day, Timed r.opensAt ∧ Timed r.closesAt := by
  intro day
  have none : Accepted [] := .inr ⟨by simp, by simp, rfl⟩
  unfold parseHours at h
  split at h
  · obtain rfl := pure_ok.mp h
    exact ⟨none, by simp [OpeningHours.rows]⟩
  · simp only [bind_ok, pure_ok] at h
    obtain ⟨rows, parsed, rfl⟩ := h
    obtain ⟨-, bounds, days⟩ := parseDays_ok.mp parsed
    rw [List.Vector.toList_length] at bounds
    by_cases inWeek : 1 ≤ day ∧ day < 8
    · have today := days (day - 1) (by rw [List.Vector.toList_length]; omega)
      rw [show 1 + (day - 1) = day by omega] at today
      exact parseDay_ok laws today
    · have empty : rangesOn rows day = [] := by
        apply rangesOn_eq_nil
        intro r hr
        have := bounds r hr
        omega
      rw [OpeningHours.rows, empty]
      exact ⟨none, by simp⟩

/-- Saving the pre-fill of a week gives the week back exactly when each of its days is
editable. -/
theorem parseHours_fieldsFrom {hours : OpeningHours}
    (sorted : hours.rows.Pairwise fun a b => a.1 ≤ b.1)
    (inWeek : ∀ r ∈ hours.rows, 1 ≤ r.1 ∧ r.1 ≤ 7)
    (shape : ∀ day, rangesOn hours.rows day = [.allDayRange] ∨
      ((rangesOn hours.rows day).length ≤ 2 ∧ ∀ r ∈ rangesOn hours.rows day, r.allDay = false)) :
    parseHours times (hoursFieldsFrom hours) = .ok hours ↔
      ∀ day, Editable (rangesOn hours.rows day) := by
  cases hours with
  | unknown =>
    have parsed : parseHours times (hoursFieldsFrom .unknown) = .ok .unknown := by
      rw [parseHours, if_pos (by decide)]
      rfl
    exact iff_of_true parsed fun day => by simp [Editable, OpeningHours.rows, overlapping]
  | weekly rows =>
    have known : ¬ ((hoursFieldsFrom (.weekly rows)).toList.all fun f =>
        decide (f.dayState = .unknown)) = true := by
      intro all
      have monday := List.all_eq_true.mp all (dayFields (rangesOn rows 1))
        (List.mem_map.mpr ⟨1, by decide, rfl⟩)
      exact dayFields_known _ (of_decide_eq_true monday)
    rw [parseHours, if_neg known]
    simp only [bind_ok, pure_ok, OpeningHours.weekly.injEq, exists_eq_right, parseDays_ok,
      List.Vector.toList_length]
    have each : ∀ day, parseDay times day (dayFields (rangesOn rows day)) =
        .ok (rangesOn rows day) ↔ Editable (rangesOn rows day) :=
      fun day => parseDay_dayFields laws (shape day)
    constructor
    · rintro ⟨-, -, days⟩ day
      by_cases hday : 1 ≤ day ∧ day < 8
      · have today := days (day - 1) (by omega)
        simp only [hoursFieldsFrom, List.Vector.toList_mk, List.getElem_map, List.getElem_range',
          Nat.one_mul, show 1 + (day - 1) = day by omega] at today
        exact (each day).mp today
      · have empty : rangesOn rows day = [] := by
          apply rangesOn_eq_nil
          intro r hr
          have : 1 ≤ r.1 ∧ r.1 ≤ 7 := inWeek r hr
          omega
        simp [OpeningHours.rows, empty, Editable, overlapping]
    · intro editable
      refine ⟨sorted, fun r hr => ?_, fun i hi => ?_⟩
      · have : 1 ≤ r.1 ∧ r.1 ≤ 7 := inWeek r hr
        omega
      · simp only [hoursFieldsFrom, List.Vector.toList_mk, List.getElem_map, List.getElem_range',
          Nat.one_mul]
        exact (each _).mpr (editable _)

end Forms

/-! ### Stored and read back -/

section Stored

variable {env : Env} (counts : Counts env)

/-- A range as it comes back from its row. -/
def carried (env : Env) (r : TimeRange) : TimeRange :=
  ⟨env.timeOfSql (env.timeToSql (storedRange r).opensAt),
    env.timeOfSql (env.timeToSql (storedRange r).closesAt), r.allDay⟩

theorem rangesOn_perm {rows rows' : List (ℕ × TimeRange)} (perm : rows.Perm rows') (day : ℕ) :
    (rangesOn rows day).Perm (rangesOn rows' day) :=
  (perm.filter _).map _

theorem rangesOn_carried (rows : List (ℕ × TimeRange)) (day : ℕ) :
    rangesOn (rows.map fun row => (row.1, carried env row.2)) day =
      (rangesOn rows day).map (carried env) := by
  simp [rangesOn, List.filter_map, Function.comp_def]

theorem rangesOverlap_comm (a b : TimeRange) : rangesOverlap a b = rangesOverlap b a := by
  rw [Bool.eq_iff_iff]
  simp only [rangesOverlap, List.any_eq_true, decide_eq_true_eq]
  constructor
  · rintro ⟨x, hx, y, hy, left, right⟩
    exact ⟨y, hy, x, hx, right, left⟩
  · rintro ⟨y, hy, x, hx, left, right⟩
    exact ⟨x, hx, y, hy, right, left⟩

theorem overlapping_perm {xs ys : List TimeRange} (perm : xs.Perm ys) :
    overlapping xs = overlapping ys := by
  have length := perm.length_eq
  match xs, ys, length with
  | [], [], _ => rfl
  | [_], [_], _ => rfl
  | _ :: _ :: _ :: _, _ :: _ :: _ :: _, _ => rfl
  | [a, b], [c, d], _ =>
    simp only [overlapping]
    rcases List.mem_pair.mp (perm.subset (List.mem_cons_self)) with rfl | rfl
    · rw [List.singleton_perm_singleton.mp ((List.perm_cons a).mp perm)]
    · have rest := (List.perm_cons a).mp (perm.trans (.swap a c []))
      rw [List.singleton_perm_singleton.mp rest, rangesOverlap_comm]

section Kept

variable {s s' : Store} {row : LocationRow} {hours : OpeningHours}
  (stored : writeHours env s row.id hours = .ok s') (flag : row.hoursUnknown = hours.isUnknown)
include stored flag

/-- The hours read back are the ranges stored, as they come back, in the order of the days. -/
theorem kept_rows : (openingOf env row (readHours s' row.id)).rows.Perm
      (hours.rows.map fun r => (r.1, carried env r.2)) ∧
    (openingOf env row (readHours s' row.id)).rows.Pairwise (fun a b => a.1 ≤ b.1) ∧
    ∀ r ∈ (openingOf env row (readHours s' row.id)).rows, 1 ≤ r.1 ∧ r.1 ≤ 7 := by
  have rows : hoursOf s' row.id = hours.rows.map (hoursRow env row.id) := by
    rw [hoursOf_writeHours stored, if_pos rfl]
  have sorted : (readHours s' row.id).Pairwise hoursBefore := List.pairwise_insertionSort _ _
  have perm : (readHours s' row.id).Perm (hours.rows.map (hoursRow env row.id)) :=
    rows ▸ List.perm_insertionSort _ _
  obtain ⟨-, inWeek, -⟩ := writeHours_ok.mp stored
  cases hours with
  | unknown =>
    rw [openingOf, flag]
    exact ⟨.refl _, .nil, by simp [OpeningHours.isUnknown, OpeningHours.rows]⟩
  | weekly given =>
    have known : openingOf env row (readHours s' row.id) =
        .weekly ((readHours s' row.id).map (readRow env)) := by
      rw [openingOf, flag]
      rfl
    rw [known]
    refine ⟨?_, ?_, ?_⟩
    · have images := perm.map (readRow env)
      rwa [List.map_map] at images
    · refine List.pairwise_map.mpr (sorted.imp fun {a b} before => ?_)
      rcases before with before | ⟨same, -⟩
      · exact before.le
      · exact same.le
    · intro r hr
      obtain ⟨q, hq, rfl⟩ := List.mem_map.mp hr
      exact inWeek q (perm.subset hq)

end Kept

/-- The day read back is the day parsed, in some order, each range as it comes back. -/
theorem kept_day {s s' : Store} {row : LocationRow} {hours : OpeningHours}
    (stored : writeHours env s row.id hours = .ok s') (flag : row.hoursUnknown = hours.isUnknown)
    (day : ℕ) : (rangesOn (openingOf env row (readHours s' row.id)).rows day).Perm
      ((rangesOn hours.rows day).map (carried env)) := by
  rw [← rangesOn_carried]
  exact rangesOn_perm (kept_rows stored flag).1 day

include counts

theorem carried_whole {t : NaiveTime} (whole : t.frac = 0) :
    env.timeOfSql (env.timeToSql t) = t := by
  have hsecs := counts.secs (t.secs * 1000000 + t.frac / 1000)
  have hfrac := counts.frac (t.secs * 1000000 + t.frac / 1000)
  have valid := t.valid
  rw [counts.toSql]
  cases h : env.timeOfSql (t.secs * 1000000 + t.frac / 1000) with
  | mk secs frac _ =>
  rw [h] at hsecs hfrac
  obtain ⟨tsecs, tfrac, _⟩ := t
  simp only at whole hsecs hfrac valid
  rw [NaiveTime.mk.injEq]
  omega

theorem carried_allDay : carried env .allDayRange = .allDayRange := by
  simp [carried, storedRange, TimeRange.allDayRange, carried_whole counts (t := .midnight) rfl,
    carried_whole counts (t := .lastSecond) rfl]

theorem carried_eq_self {ranges : List TimeRange} (accepted : Accepted ranges)
    (whole : ∀ r ∈ ranges, r.opensAt.frac = 0 ∧ r.closesAt.frac = 0) :
    ranges.map (carried env) = ranges := by
  rcases accepted with rfl | ⟨-, timed, -⟩
  · rw [List.map_singleton, carried_allDay counts]
  · refine (List.map_congr_left fun r hr => ?_).trans (List.map_id _)
    obtain ⟨opens, closes⟩ := whole r hr
    have clear := (timed r hr).1
    obtain ⟨o, c, all⟩ := r
    simp only at opens closes clear
    subst clear
    simp [carried, storedRange, carried_whole counts opens, carried_whole counts closes]

theorem kept_shape {s s' : Store} {row : LocationRow} {hours : OpeningHours}
    (stored : writeHours env s row.id hours = .ok s') (flag : row.hoursUnknown = hours.isUnknown)
    {day : ℕ} (accepted : Accepted (rangesOn hours.rows day)) :
    rangesOn (openingOf env row (readHours s' row.id)).rows day = [.allDayRange] ∨
      ((rangesOn (openingOf env row (readHours s' row.id)).rows day).length ≤ 2 ∧
        ∀ r ∈ rangesOn (openingOf env row (readHours s' row.id)).rows day, r.allDay = false) := by
  have perm := kept_day stored flag day
  rcases accepted with one | ⟨short, timed, -⟩
  · rw [one, List.map_singleton, carried_allDay counts] at perm
    exact .inl (List.perm_singleton.mp perm)
  · refine .inr ⟨?_, fun r hr => ?_⟩
    · rw [perm.length_eq, List.length_map]
      exact short
    · obtain ⟨q, hq, rfl⟩ := List.mem_map.mp (perm.subset hr)
      exact (timed q hq).1

/-- Without a leap second a day is editable exactly when its times have no seconds: the rest was
checked when it was parsed. -/
theorem editable_iff {s s' : Store} {row : LocationRow} {hours : OpeningHours}
    (stored : writeHours env s row.id hours = .ok s') (flag : row.hoursUnknown = hours.isUnknown)
    {day : ℕ} (accepted : Accepted (rangesOn hours.rows day))
    (whole : ∀ r ∈ rangesOn hours.rows day, r.opensAt.frac = 0 ∧ r.closesAt.frac = 0) :
    Editable (rangesOn (openingOf env row (readHours s' row.id)).rows day) ↔
      ∀ r ∈ rangesOn hours.rows day,
        r.allDay = true ∨ (WholeMinute r.opensAt ∧ WholeMinute r.closesAt) := by
  have perm := kept_day stored flag day
  rw [carried_eq_self counts accepted whole] at perm
  rw [Editable, overlapping_perm perm]
  constructor
  · rintro ⟨each, -⟩ r hr
    rcases each r (perm.mem_iff.mpr hr) with all | ⟨opens, closes, -⟩
    · exact .inl all
    · exact .inr ⟨opens, closes⟩
  · intro each
    rcases accepted with one | ⟨-, timed, apart⟩
    · rw [one] at perm ⊢
      rw [List.perm_singleton.mp perm]
      exact ⟨by simp [TimeRange.allDayRange], rfl⟩
    · refine ⟨fun r hr => ?_, apart⟩
      have inDay := perm.mem_iff.mp hr
      rcases each r inDay with all | ⟨opens, closes⟩
      · exact .inl all
      · exact .inr ⟨opens, closes, (timed r inDay).2⟩

end Stored

/-- Saving the edit form as it was pre-filled keeps the hours exactly when every range shown has
whole minutes, two different times and no overlap on its day; after hours without a leap second,
exactly when their ranges have whole minutes. -/
theorem edit_form_keeps_hours (env : Env) (counts : Counts env) (times : FormTimes)
    (laws : times.Lawful) {fields : List.Vector DayFields 7} {hours : OpeningHours}
    (parsed : parseHours times fields = .ok hours) {s s' : Store} {row : LocationRow}
    (stored : writeHours env s row.id hours = .ok s') (flag : row.hoursUnknown = hours.isUnknown)
    {security : List SecurityRow} {parking : ParkingLocation}
    (read : toDomain env row (readHours s' row.id) security = .ok parking) :
    (parseHours times (hoursFieldsFrom parking.hours) = .ok parking.hours ↔
      ∀ day, Editable (rangesOn parking.hours.rows day)) ∧
    ((∀ r ∈ hours.rows, r.2.opensAt.frac = 0 ∧ r.2.closesAt.frac = 0) →
      ((∀ day, Editable (rangesOn parking.hours.rows day)) ↔
        ∀ r ∈ hours.rows,
          r.2.allDay = true ∨ (WholeMinute r.2.opensAt ∧ WholeMinute r.2.closesAt))) := by
  have accepted := fun day => (parseHours_ok laws parsed day).1
  obtain ⟨-, sorted, inWeek⟩ := kept_rows stored flag
  rw [toDomain_hours read]
  constructor
  · apply parseHours_fieldsFrom laws sorted inWeek
    exact fun day => kept_shape counts stored flag (accepted day)
  · intro whole
    have each := fun day => editable_iff counts stored flag (accepted day)
      fun r hr => whole (day, r) (mem_rangesOn.mp hr)
    rw [forall_congr' each]
    constructor
    · rintro shown ⟨day, r⟩ hr
      exact shown day r (mem_rangesOn.mpr hr)
    · intro shown day r hr
      exact shown (day, r) (mem_rangesOn.mp hr)

/-! Readers of two digits for each part, with the laws above. -/

def twoDigits : FormTimes where
  hourMinute s := match s.toList with
    | [h₁, h₂, ':', m₁, m₂] => do
      let h ← Clock.unpad [h₁, h₂]
      let m ← Clock.unpad [m₁, m₂]
      if m < 60 then Clock.ofParts h m 0 0 else none
    | _ => none
  hourMinuteSecond s := match s.toList with
    | [h₁, h₂, ':', m₁, m₂, ':', s₁, s₂] => do
      let h ← Clock.unpad [h₁, h₂]
      let m ← Clock.unpad [m₁, m₂]
      let s ← Clock.unpad [s₁, s₂]
      if m < 60 then Clock.ofParts h m s 0 else none
    | _ => none

theorem ofParts_timed {h m s : ℕ} {t : NaiveTime} (made : Clock.ofParts h m s 0 = some t) :
    Timed t := by
  simp only [Clock.ofParts, Option.dite_none_right_eq_some, Option.some.injEq] at made
  obtain ⟨-, rfl⟩ := made
  unfold Timed
  by_cases leap : s = 60 <;> simp [leap]

theorem twoDigits_lawful : twoDigits.Lawful where
  reads_minutes t := by
    obtain ⟨secs, frac, valid⟩ := t
    have two : ∀ n, Clock.unpad [Clock.digit (n / 10), Clock.digit n] = some (n % 100) :=
      fun n => Clock.unpad_pad 2 n
    have hours : secs / 3600 % 100 = secs / 3600 := Nat.mod_eq_of_lt (by omega)
    have minutes : secs / 60 % 60 % 100 = secs / 60 % 60 := Nat.mod_eq_of_lt (by omega)
    have total : secs / 3600 * 3600 + secs / 60 % 60 * 60 = secs / 60 * 60 := by omega
    simp only [twoDigits, timeValue, hour, minute, String.toList_ofList, Clock.pad_two,
      List.cons_append, List.nil_append, two, hours, minutes, Option.bind_eq_bind,
      Option.bind_some, if_pos (Nat.mod_lt (secs / 60) (show 60 > 0 by decide)), Clock.ofParts]
    simp only [Nat.zero_min, Nat.add_zero, total, onMinute, show ¬ (0 = 60) by decide, if_false]
    rw [dif_pos (by omega)]
  whole_seconds s t h := by
    simp only [twoDigits] at h
    rcases h with h | h
    · split at h
      · simp only [Option.bind_eq_bind, Option.bind_eq_some_iff, Option.ite_none_right_eq_some] at h
        obtain ⟨_, -, _, -, -, made⟩ := h
        exact ofParts_timed made
      · cases h
    · split at h
      · simp only [Option.bind_eq_bind, Option.bind_eq_some_iff, Option.ite_none_right_eq_some] at h
        obtain ⟨_, -, _, -, _, -, -, made⟩ := h
        exact ofParts_timed made
      · cases h

/-- A week whose Monday has the given ranges, its other days closed. -/
def mondays (r₁ r₂ : String × String) : List.Vector DayFields 7 :=
  ⟨⟨"ranges", r₁.1, r₁.2, r₂.1, r₂.2⟩ :: List.replicate 6 (stateOnly .closed), rfl⟩

theorem nine_valid :
    32400 < 86400 ∧ 0 < 2000000000 ∧ (1000000000 ≤ 0 → 32400 % 60 = 59) := by decide

theorem twentyTwo_valid :
    79200 < 86400 ∧ 0 < 2000000000 ∧ (1000000000 ≤ 0 → 79200 % 60 = 59) := by decide

/-- Two ranges, posted the later one first. -/
def twice : OpeningHours :=
  .weekly [(1, ⟨⟨61200, 0, by decide⟩, ⟨79200, 0, twentyTwo_valid⟩, false⟩),
    (1, ⟨⟨21600, 0, by decide⟩, ⟨32400, 0, nine_valid⟩, false⟩)]

theorem edit_form_keeps_twice : ∃ s' parking,
    parseHours twoDigits (mondays ("17:00", "22:00") ("06:00", "09:00")) = .ok twice ∧
    writeHours Clock.env empty 1 twice = .ok s' ∧
    toDomain Clock.env (rackRow twice) (readHours s' 1) [] = .ok parking ∧
    (parseHours twoDigits (hoursFieldsFrom parking.hours) = .ok parking.hours ↔
      ∀ day, Editable (rangesOn parking.hours.rows day)) ∧
    ((∀ r ∈ twice.rows, r.2.opensAt.frac = 0 ∧ r.2.closesAt.frac = 0) →
      ((∀ day, Editable (rangesOn parking.hours.rows day)) ↔
        ∀ r ∈ twice.rows,
          r.2.allDay = true ∨ (WholeMinute r.2.opensAt ∧ WholeMinute r.2.closesAt))) := by
  have parsed : parseHours twoDigits (mondays ("17:00", "22:00") ("06:00", "09:00")) = .ok twice :=
    by decide +kernel
  have writes : (writeHours Clock.env empty 1 twice).isOk = true := by decide +kernel
  obtain ⟨s', stored⟩ := exists_of_isOk writes
  have reads : ((writeHours Clock.env empty 1 twice).bind fun s' =>
      (toDomain Clock.env (rackRow twice) (readHours s' 1) []).mapError
        ReaderError.toContribution).isOk = true := by
    decide +kernel
  simp only [stored, Except.bind] at reads
  obtain ⟨parking, read⟩ := exists_of_isOk reads
  have read := mapError_ok.mp read
  exact ⟨s', parking, parsed, stored, read, edit_form_keeps_hours Clock.env clock_counts twoDigits
    twoDigits_lawful parsed stored rfl read⟩

/-- Open on Mondays from half a minute past nine to five. -/
def halfPast : OpeningHours :=
  .weekly [(1, ⟨⟨32430, 0, by decide⟩, ⟨61200, 0, by decide⟩, false⟩)]

/-- The same on whole minutes. -/
def onTheHour : OpeningHours :=
  .weekly [(1, ⟨⟨32400, 0, nine_valid⟩, ⟨61200, 0, by decide⟩, false⟩)]

/-- Open on Mondays for less than a minute. -/
def moment : OpeningHours :=
  .weekly [(1, ⟨⟨32410, 0, by decide⟩, ⟨32450, 0, by decide⟩, false⟩)]

/-- Two weeks as posted, stored and read back: saved again untouched, the first opens half a
minute earlier and the second is refused. -/
theorem seconds_dropped :
    (parseHours twoDigits (mondays ("09:00:30", "17:00") ("", "")) = .ok halfPast ∧
      (∃ parking, readBack halfPast = .ok parking ∧ parking.hours = halfPast) ∧
      parseHours twoDigits (hoursFieldsFrom halfPast) = .ok onTheHour ∧ onTheHour ≠ halfPast) ∧
    parseHours twoDigits (mondays ("09:00:10", "09:00:50") ("", "")) = .ok moment ∧
      (∃ parking, readBack moment = .ok parking ∧ parking.hours = moment) ∧
      parseHours twoDigits (hoursFieldsFrom moment) = .error ⟨1, hoursInvalidRange⟩ := by
  have reads : ∀ hours ∈ [halfPast, moment], (readBack hours).isOk = true ∧
      openingOf Clock.env (rackRow hours)
        (readHours (run Clock.env empty (created hours)) 1) = hours := by
    decide +kernel
  have back : ∀ hours ∈ [halfPast, moment],
      ∃ parking, readBack hours = .ok parking ∧ parking.hours = hours := by
    intro hours member
    obtain ⟨isOk, same⟩ := reads hours member
    obtain ⟨parking, read⟩ := exists_of_isOk isOk
    exact ⟨parking, read, (toDomain_hours read).trans same⟩
  have opened : parseHours twoDigits (mondays ("09:00:30", "17:00") ("", "")) = .ok halfPast := by
    decide +kernel
  have again : parseHours twoDigits (hoursFieldsFrom halfPast) = .ok onTheHour := by
    decide +kernel
  have differ : onTheHour ≠ halfPast := by decide +kernel
  have brief : parseHours twoDigits (mondays ("09:00:10", "09:00:50") ("", "")) = .ok moment := by
    decide +kernel
  have refused : parseHours twoDigits (hoursFieldsFrom moment) =
      .error ⟨1, hoursInvalidRange⟩ := by
    decide +kernel
  exact ⟨⟨opened, back halfPast (by simp), again, differ⟩, brief, back moment (by simp), refused⟩

end HoursForm
