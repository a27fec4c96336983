import BikesNest.HoursForm

/-! What the hours form accepts, beside what it should. A range of a day runs around the clock from
its opening to its closing; the parser compares two of them by whole minutes, while the times that
it reads have seconds. -/

namespace HoursOverlap

open Parking Outcome OpenNow HoursForm

/-- The times of a range; one that closes before it opens runs through midnight. -/
def During (r : TimeRange) (t : NaiveTime) : Prop :=
  if r.opensAt < r.closesAt then r.opensAt ≤ t ∧ t < r.closesAt
  else r.opensAt ≤ t ∨ t < r.closesAt

def Apart (a b : TimeRange) : Prop := ∀ t, ¬ (During a t ∧ During b t)

/-- The two pairs of time fields of a day. -/
def fieldPairs (f : DayFields) : List (String × String) :=
  [(f.r1Open, f.r1Close), (f.r2Open, f.r2Close)]

def Blank (p : String × String) : Prop := trim p.1 = "" ∧ trim p.2 = ""

/-- A pair of fields as a range. -/
def readRange (times : FormTimes) (p : String × String) : Option TimeRange := do
  let opens ← parseTime times p.1
  let closes ← parseTime times p.2
  pure ⟨opens, closes, false⟩

/-- The pair holds two different times. -/
def Timely (times : FormTimes) (p : String × String) : Prop :=
  ∃ r, readRange times p = some r ∧ r.opensAt ≠ r.closesAt

/-- A day given by ranges has one, all of them are sound, and two of them do not meet. -/
structure Sound (times : FormTimes) (apart : TimeRange → TimeRange → Prop) (f : DayFields) :
    Prop where
  named : ∃ p ∈ fieldPairs f, ¬ Blank p
  timely : ∀ p ∈ fieldPairs f, ¬ Blank p → Timely times p
  apart : ∀ a b, readRange times (f.r1Open, f.r1Close) = some a →
    readRange times (f.r2Open, f.r2Close) = some b → apart a b

def Acceptable (times : FormTimes) (f : DayFields) : Prop :=
  f.dayState = .ranges → Sound times Apart f

/-- The day is the first one that is not acceptable. -/
def FirstOffending (times : FormTimes) (fields : List DayFields) (day : ℕ) : Prop :=
  ∃ i f, day = i + 1 ∧ fields[i]? = some f ∧ ¬ Acceptable times f ∧
    ∀ j g, j < i → fields[j]? = some g → Acceptable times g

/-- The parser accepts the week where every day is acceptable, and else names the first that is
not. -/
def Judged (times : FormTimes) (fields : List.Vector DayFields 7) : Prop :=
  ((∃ hours, parseHours times fields = .ok hours) ↔
      ∀ f ∈ fields.toList, Acceptable times f) ∧
    ∀ e, parseHours times fields = .error e → FirstOffending times fields.toList e.day

/-- The range ends in another minute of the clock than it begins in. -/
def OtherMinute (r : TimeRange) : Prop := r.opensAt.secs / 60 ≠ r.closesAt.secs / 60

/-- The range with the seconds of its times dropped. -/
def cut (r : TimeRange) : TimeRange := ⟨onMinute r.opensAt, onMinute r.closesAt, r.allDay⟩

/-- The seconds make no difference to whether two ranges meet: neither range is lost with them if
the two are apart, and the two do not come apart without them. -/
def Steady (a b : TimeRange) : Prop :=
  (Apart a b → OtherMinute a ∧ OtherMinute b) ∧
    (OtherMinute a → OtherMinute b → Apart (cut a) (cut b) → Apart a b)

/-- A day with two sound ranges for which the seconds make a difference. -/
def Misjudged (times : FormTimes) (f : DayFields) : Prop :=
  f.dayState = .ranges ∧ ∃ a b, readRange times (f.r1Open, f.r1Close) = some a ∧
    readRange times (f.r2Open, f.r2Close) = some b ∧ a.opensAt ≠ a.closesAt ∧
    b.opensAt ≠ b.closesAt ∧ ¬ Steady a b

section Ranges

variable {a b : TimeRange}

theorem naive_lt {t u : NaiveTime} :
    t < u ↔ t.secs < u.secs ∨ t.secs = u.secs ∧ t.frac < u.frac := .rfl

theorem naive_le {t u : NaiveTime} :
    t ≤ u ↔ t.secs < u.secs ∨ t.secs = u.secs ∧ t.frac ≤ u.frac := .rfl

theorem during_start (a : TimeRange) : During a a.opensAt := by
  have here : a.opensAt ≤ a.opensAt := naive_le.mpr (.inr ⟨rfl, le_rfl⟩)
  unfold During
  split
  · rename_i order
    exact ⟨here, order⟩
  · exact .inl here

/-- Two ranges meet where one begins, if they meet. -/
theorem apart_iff : Apart a b ↔ ¬ During a b.opensAt ∧ ¬ During b a.opensAt := by
  constructor
  · exact fun apart => ⟨fun meet => apart _ ⟨meet, during_start b⟩,
      fun meet => apart _ ⟨during_start a, meet⟩⟩
  · rintro ⟨first, second⟩ t ⟨ha, hb⟩
    simp only [During, naive_lt, naive_le] at first second ha hb
    split at ha <;> split at hb <;> split at first <;> split at second <;> simp_all <;> omega

/-- Without the seconds a range is one of minutes. -/
theorem during_cut {t : NaiveTime} : During (cut a) (onMinute t) ↔
    if a.opensAt.secs / 60 < a.closesAt.secs / 60 then
      a.opensAt.secs / 60 ≤ t.secs / 60 ∧ t.secs / 60 < a.closesAt.secs / 60
    else a.opensAt.secs / 60 ≤ t.secs / 60 ∨ t.secs / 60 < a.closesAt.secs / 60 := by
  have order : ∀ t u : NaiveTime, onMinute t < onMinute u ↔ t.secs / 60 < u.secs / 60 := by
    intro t u
    rw [naive_lt]
    simp only [onMinute]
    omega
  have orderEq : ∀ t u : NaiveTime, onMinute t ≤ onMinute u ↔ t.secs / 60 ≤ u.secs / 60 := by
    intro t u
    rw [naive_le]
    simp only [onMinute]
    omega
  simp only [During, cut, order, orderEq]

/-- A range within one minute is cut to the whole day, and the others to their minutes. -/
theorem rangesOverlap_iff (ha : a.allDay = false) (hb : b.allDay = false) :
    rangesOverlap a b = true ↔ ¬ OtherMinute a ∨ ¬ OtherMinute b ∨ ¬ Apart (cut a) (cut b) := by
  have minutes : ∀ t : NaiveTime, hour t * 60 + minute t = t.secs / 60 := by
    intro t
    simp only [hour, minute]
    omega
  have bound : ∀ t : NaiveTime, t.secs / 60 < 24 * 60 := by
    intro t
    have := t.valid
    omega
  have boundA := bound a.opensAt
  have boundB := bound b.opensAt
  have opens : ∀ r : TimeRange, (cut r).opensAt = onMinute r.opensAt := fun _ => rfl
  simp only [rangesOverlap, segments, ha, hb, Bool.false_eq_true, if_false, minutes, apart_iff,
    opens, during_cut, OtherMinute]
  generalize a.opensAt.secs / 60 = ao at *
  generalize a.closesAt.secs / 60 = ac at *
  generalize b.opensAt.secs / 60 = bo at *
  generalize b.closesAt.secs / 60 = bc at *
  by_cases orderA : ao < ac <;> by_cases orderB : bo < bc <;>
    simp only [orderA, orderB, if_true, if_false, List.any_cons, List.any_nil, Bool.or_false,
      Bool.or_eq_true, decide_eq_true_eq] <;> omega

theorem cut_apart (apart : Apart a b) (ha : OtherMinute a) (hb : OtherMinute b) :
    Apart (cut a) (cut b) := by
  have opens : ∀ r : TimeRange, (cut r).opensAt = onMinute r.opensAt := fun _ => rfl
  rw [apart_iff] at apart ⊢
  obtain ⟨first, second⟩ := apart
  rw [opens, opens, during_cut, during_cut]
  simp only [During, OtherMinute, naive_lt, naive_le] at first second ha hb ⊢
  split at first <;> split at second <;> constructor <;> split <;> omega

/-- The parser tells two ranges apart rightly exactly when the seconds make no difference. -/
theorem steady_iff (ha : a.allDay = false) (hb : b.allDay = false) :
    (rangesOverlap a b = false ↔ Apart a b) ↔ Steady a b := by
  have overlap := rangesOverlap_iff ha hb
  rw [← Bool.not_eq_true, overlap]
  constructor
  · intro agree
    refine ⟨fun apart => ?_, fun otherA otherB cutApart => ?_⟩
    · have clear := agree.mpr apart
      push Not at clear
      exact ⟨clear.1, clear.2.1⟩
    · apply agree.mp
      push Not
      exact ⟨otherA, otherB, cutApart⟩
  · rintro ⟨kept, told⟩
    push Not
    constructor
    · rintro ⟨otherA, otherB, cutApart⟩
      exact told otherA otherB cutApart
    · intro apart
      obtain ⟨otherA, otherB⟩ := kept apart
      exact ⟨otherA, otherB, cut_apart apart otherA otherB⟩

end Ranges

/-! ### One day -/

section Days

variable {times : FormTimes}

theorem parseTime_trim (s : String) : parseTime times (trim s) = parseTime times s := by
  simp only [parseTime, trim_trim]

theorem readRange_blank {p : String × String} (blank : Blank p) : readRange times p = none := by
  have empty : parseTime times p.1 = none := by
    simp only [parseTime, blank.1, if_true]
  simp [readRange, empty]

theorem readRange_allDay {p : String × String} {r : TimeRange} (read : readRange times p = some r) :
    r.allDay = false := by
  simp only [readRange, Option.bind_eq_bind, Option.pure_def, Option.bind_eq_some_iff,
    Option.some.injEq] at read
  obtain ⟨_, -, _, -, rfl⟩ := read
  rfl

/-- The fields of a day give ranges when each pair that is not blank holds two different times. -/
theorem rangesOf_iff {invalid : HoursError} {pairs : List (String × String)}
    {ranges : List TimeRange} :
    rangesOf times invalid (pairs.map fun p => (trim p.1, trim p.2)) = .ok ranges ↔
      (∀ p ∈ pairs, ¬ Blank p → Timely times p) ∧ ranges = pairs.filterMap (readRange times) := by
  induction pairs generalizing ranges with
  | nil =>
    rw [List.map_nil, rangesOf, pure_ok, eq_comm]
    simp
  | cons p pairs ih =>
    rw [List.map_cons, rangesOf, List.forall_mem_cons]
    by_cases blank : Blank p
    · rw [if_pos (show trim p.1 = "" ∧ trim p.2 = "" from blank), ih, List.filterMap_cons_none (readRange_blank blank)]
      simp [blank]
    · rw [if_neg (show ¬ (trim p.1 = "" ∧ trim p.2 = "") from blank)]
      simp only [bind_ok, orFail_ok, ensure_ok, pure_ok, exists_and_left, exists_const,
        parseTime_trim, ih]
      constructor
      · rintro ⟨o, opens, c, closes, differ, _, ⟨timely, rfl⟩, rfl⟩
        have read : readRange times p = some ⟨o, c, false⟩ := by
          simp [readRange, opens, closes]
        exact ⟨⟨fun _ => ⟨_, read, differ⟩, timely⟩, (List.filterMap_cons_some read).symm⟩
      · rintro ⟨⟨here, timely⟩, rfl⟩
        obtain ⟨r, read, differ⟩ := here blank
        rw [List.filterMap_cons_some read]
        simp only [readRange, Option.bind_eq_bind, Option.pure_def, Option.bind_eq_some_iff,
          Option.some.injEq] at read
        obtain ⟨o, opens, c, closes, rfl⟩ := read
        exact ⟨o, opens, c, closes, differ, _, ⟨timely, rfl⟩, rfl⟩

theorem rangesOf_error {invalid e : HoursError} {pairs : List (String × String)}
    (h : rangesOf times invalid pairs = .error e) : e = invalid := by
  induction pairs with
  | nil => cases h
  | cons p pairs ih =>
    simp only [rangesOf] at h
    split at h
    · exact ih h
    · simp only [bind_eq_error, orFail_eq_error, ensure_eq_error] at h
      rcases h with ⟨-, rfl⟩ | ⟨o, -, ⟨-, rfl⟩ | ⟨c, -, ⟨-, rfl⟩ | ⟨_, -, rest | ⟨_, -, made⟩⟩⟩⟩
      · rfl
      · rfl
      · rfl
      · exact ih rest
      · cases made

/-- What the parser asks of a day, in the words of `Acceptable`. -/
def Passes (times : FormTimes) (f : DayFields) : Prop :=
  f.dayState = .ranges → Sound times (fun a b => rangesOverlap a b = false) f

/-- The ranges read of a day overlap when it has two that do. -/
theorem overlapping_pairs {f : DayFields} :
    overlapping ((fieldPairs f).filterMap (readRange times)) = false ↔
      ∀ a b, readRange times (f.r1Open, f.r1Close) = some a →
        readRange times (f.r2Open, f.r2Close) = some b → rangesOverlap a b = false := by
  cases first : readRange times (f.r1Open, f.r1Close) <;>
    cases second : readRange times (f.r2Open, f.r2Close) <;>
    simp [fieldPairs, first, second, overlapping]

theorem parseDay_iff {day : ℕ} {f : DayFields} :
    (∃ ranges, parseDay times day f = .ok ranges) ↔ Passes times f := by
  unfold parseDay Passes
  cases state : f.dayState with
  | unknown | closed | allDay =>
    exact iff_of_true ⟨_, rfl⟩ (fun other => by cases other)
  | ranges =>
    have fields : ∀ ranges, rangesOf times ⟨day, hoursInvalidRange⟩
        [(trim f.r1Open, trim f.r1Close), (trim f.r2Open, trim f.r2Close)] = .ok ranges ↔ _ :=
      fun ranges => show rangesOf times _ ((fieldPairs f).map _) = _ ↔ _ from rangesOf_iff
    simp only [bind_ok, ensure_ok, pure_ok, exists_and_left, exists_const, fields]
    constructor
    · rintro ⟨_, _, ⟨timely, rfl⟩, given, apart, -⟩ -
      obtain ⟨r, hr⟩ := List.exists_mem_of_ne_nil _ given
      obtain ⟨p, hp, read⟩ := List.mem_filterMap.mp hr
      refine ⟨⟨p, hp, fun blank => ?_⟩, timely, overlapping_pairs.mp apart⟩
      rw [readRange_blank blank] at read
      cases read
    · intro sound
      obtain ⟨⟨p, hp, written⟩, timely, apart⟩ := sound trivial
      obtain ⟨r, read, -⟩ := timely p hp written
      refine ⟨_, _, ⟨timely, rfl⟩, ?_, overlapping_pairs.mpr apart, rfl⟩
      exact List.ne_nil_of_mem (List.mem_filterMap.mpr ⟨p, hp, read⟩)

theorem parseDay_error {day : ℕ} {f : DayFields} {e : HoursError}
    (h : parseDay times day f = .error e) : e.day = day := by
  unfold parseDay at h
  cases state : f.dayState with
  | unknown | closed | allDay =>
    rw [state] at h
    cases h
  | ranges =>
    rw [state] at h
    simp only [bind_eq_error, ensure_eq_error] at h
    rcases h with read | ⟨_, -, ⟨-, rfl⟩ | ⟨_, -, ⟨-, rfl⟩ | ⟨_, -, made⟩⟩⟩
    · rw [rangesOf_error read]
    · rfl
    · rfl
    · cases made

/-- A misjudged day is one on which the parser and the rule differ. -/
theorem misjudged_iff {f : DayFields} :
    Misjudged times f ↔ ¬ (Passes times f ↔ Acceptable times f) := by
  constructor
  · rintro ⟨state, a, b, first, second, differA, differB, unsteady⟩ agree
    rw [← steady_iff (readRange_allDay first) (readRange_allDay second)] at unsteady
    have sound : ∀ apart : TimeRange → TimeRange → Prop, Sound times apart f ↔ apart a b := by
      intro apart
      have read : ∀ p ∈ fieldPairs f, Timely times p := by
        intro p hp
        rcases List.mem_pair.mp hp with rfl | rfl
        · exact ⟨a, first, differA⟩
        · exact ⟨b, second, differB⟩
      constructor
      · exact fun sound => sound.apart a b first second
      · intro told
        refine ⟨⟨_, List.mem_cons_self, fun blank => ?_⟩, fun p hp _ => read p hp, ?_⟩
        · rw [readRange_blank blank] at first
          cases first
        · intro a' b' first' second'
          obtain rfl := Option.some.inj (first.symm.trans first')
          obtain rfl := Option.some.inj (second.symm.trans second')
          exact told
    rw [Passes, Acceptable, sound, sound, forall_prop_of_true state, forall_prop_of_true state]
      at agree
    exact unsteady agree
  · intro differ
    by_contra judged
    apply differ
    unfold Passes Acceptable
    refine forall_congr' fun state => ?_
    have told : (∀ p ∈ fieldPairs f, ¬ Blank p → Timely times p) → ∀ a b,
        readRange times (f.r1Open, f.r1Close) = some a →
        readRange times (f.r2Open, f.r2Close) = some b →
        (rangesOverlap a b = false ↔ Apart a b) := by
      intro timely a b first second
      have differs : ∀ p ∈ fieldPairs f, ∀ r, readRange times p = some r →
          r.opensAt ≠ r.closesAt := by
        intro p hp r read
        obtain ⟨r', read', differ⟩ := timely p hp fun blank => by
          rw [readRange_blank blank] at read
          cases read
        obtain rfl := Option.some.inj (read.symm.trans read')
        exact differ
      rw [steady_iff (readRange_allDay first) (readRange_allDay second)]
      by_contra unsteady
      exact judged ⟨state, a, b, first, second, differs _ (by simp [fieldPairs]) a first,
        differs _ (by simp [fieldPairs]) b second, unsteady⟩
    constructor
    · rintro ⟨named, timely, apart⟩
      exact ⟨named, timely, fun a b first second =>
        (told timely a b first second).mp (apart a b first second)⟩
    · rintro ⟨named, timely, apart⟩
      exact ⟨named, timely, fun a b first second =>
        (told timely a b first second).mpr (apart a b first second)⟩

/-! ### The week -/

theorem parseDays_passes {fields : List DayFields} {day : ℕ} {rows : List (ℕ × TimeRange)}
    (h : parseDays times day fields = .ok rows) : ∀ f ∈ fields, Passes times f := by
  intro f hf
  obtain ⟨i, hi, rfl⟩ := List.getElem_of_mem hf
  exact parseDay_iff.mp ⟨_, (parseDays_ok.mp h).2.2 i hi⟩

/-- The parser stops at the first day that it does not take. -/
theorem parseDays_error {fields : List DayFields} {day : ℕ} {e : HoursError}
    (h : parseDays times day fields = .error e) : ∃ i f, e.day = day + i ∧ fields[i]? = some f ∧
      ¬ Passes times f ∧ ∀ j g, j < i → fields[j]? = some g → Passes times g := by
  induction fields generalizing day with
  | nil => cases h
  | cons f fields ih =>
    rw [parseDays, bind_eq_error] at h
    rcases h with here | ⟨ranges, first, later⟩
    · refine ⟨0, f, parseDay_error here, rfl, fun passes => ?_, fun j g before => by omega⟩
      obtain ⟨ranges, taken⟩ : ∃ ranges, parseDay times day f = .ok ranges :=
        parseDay_iff.mpr passes
      rw [here] at taken
      cases taken
    · rw [bind_eq_error] at later
      rcases later with later | ⟨_, -, made⟩
      · obtain ⟨i, g, place, there, fails, before⟩ := ih later
        refine ⟨i + 1, g, by omega, there, fails, fun j g' earlier there' => ?_⟩
        cases j with
        | zero =>
          obtain rfl := Option.some.inj there'
          exact parseDay_iff.mp ⟨ranges, first⟩
        | succ j => exact before j g' (by omega) there'
      · cases made

end Days

/-- The verdict on a week: every day passes, or the first one that does not is named. -/
theorem parseHours_verdict (times : FormTimes) (fields : List.Vector DayFields 7) :
    ((∃ hours, parseHours times fields = .ok hours) ∧ ∀ f ∈ fields.toList, Passes times f) ∨
      ∃ e i f, parseHours times fields = .error e ∧ e.day = i + 1 ∧ fields.toList[i]? = some f ∧
        ¬ Passes times f ∧ ∀ j g, j < i → fields.toList[j]? = some g → Passes times g := by
  unfold parseHours
  split
  · rename_i unknown
    refine .inl ⟨⟨_, rfl⟩, fun f hf state => ?_⟩
    have none := of_decide_eq_true (List.all_eq_true.mp unknown f hf)
    rw [state] at none
    cases none
  · cases parsed : parseDays times 1 fields.toList with
    | ok rows => exact .inl ⟨⟨_, rfl⟩, parseDays_passes parsed⟩
    | error e =>
      obtain ⟨i, f, place, rest⟩ := parseDays_error parsed
      exact .inr ⟨e, i, f, rfl, by omega, rest⟩

/-- Up to a day that is the first not to pass, the parser and the rule agree. -/
theorem agree_before {days : List DayFields} {passes acceptable : DayFields → Prop}
    (excused : ∀ (i : ℕ) f, days[i]? = some f → ¬ (passes f ↔ acceptable f) →
      ∃ j g, j < i ∧ days[j]? = some g ∧ ¬ acceptable g)
    (i : ℕ) (before : ∀ j g, j < i → days[j]? = some g → passes g) :
    (∀ j g, j < i → days[j]? = some g → acceptable g) ∧
      ∀ f, days[i]? = some f → (passes f ↔ acceptable f) := by
  induction i using Nat.strong_induction_on with
  | _ i ih =>
    have earlier : ∀ j g, j < i → days[j]? = some g → acceptable g := by
      intro j g less there
      have agree := (ih j less fun k h less' => before k h (by omega)).2 g there
      exact agree.mp (before j g less there)
    refine ⟨earlier, fun f here => ?_⟩
    by_contra differ
    obtain ⟨j, g, less, there, not⟩ := excused i f here differ
    exact not (earlier j g less there)

/-- A week is judged rightly exactly when each day for which seconds make a difference comes after
one that is not acceptable anyway. -/
theorem parse_hours_judges_iff (times : FormTimes) (fields : List.Vector DayFields 7) :
    Judged times fields ↔ ∀ (i : ℕ) f, fields.toList[i]? = some f → Misjudged times f →
      ∃ j g, j < i ∧ fields.toList[j]? = some g ∧ ¬ Acceptable times g := by
  simp only [misjudged_iff]
  constructor
  · rintro ⟨accepts, names⟩ i f here differ
    by_contra acceptable
    push Not at acceptable
    rcases parseHours_verdict times fields with ⟨taken, passes⟩ | ⟨e, k, g, failed, place, rest⟩
    · have member := List.mem_of_getElem? here
      exact differ (iff_of_true (passes f member) (accepts.mp taken f member))
    · obtain ⟨there, fails, before⟩ := rest
      obtain ⟨k', g', place', there', offends, fine⟩ := names e failed
      obtain rfl : k' = k := by omega
      obtain rfl := Option.some.inj (there.symm.trans there')
      rcases lt_trichotomy i k' with less | rfl | greater
      · exact differ (iff_of_true (before i f less here) (fine i f less here))
      · obtain rfl := Option.some.inj (here.symm.trans there)
        exact differ (iff_of_false fails offends)
      · exact offends (acceptable k' g greater there)
  · intro excused
    have agree := agree_before excused
    rcases parseHours_verdict times fields with ⟨taken, passes⟩ | ⟨e, k, g, failed, place, rest⟩
    · refine ⟨iff_of_true taken fun f hf => ?_, fun e failed => ?_⟩
      · obtain ⟨i, hi, rfl⟩ := List.getElem_of_mem hf
        have upTo := agree i fun j g _ there => passes g (List.mem_of_getElem? there)
        exact (upTo.2 _ (List.getElem?_eq_getElem hi)).mp (passes _ hf)
      · obtain ⟨hours, ok⟩ := taken
        rw [ok] at failed
        cases failed
    · obtain ⟨there, fails, before⟩ := rest
      obtain ⟨fine, here⟩ := agree k before
      have offends : ¬ Acceptable times g := fun fit => fails ((here g there).mpr fit)
      refine ⟨iff_of_false ?_ fun all => offends (all g (List.mem_of_getElem? there)), ?_⟩
      · rintro ⟨hours, ok⟩
        rw [failed] at ok
        cases ok
      · intro e' failed'
        obtain rfl := Except.error.inj (failed.symm.trans failed')
        exact ⟨k, g, place, there, offends, fine⟩

/-- Two ranges that meet for twenty seconds are taken, and two that do not meet are refused, the
first of them lying within a minute. -/
theorem seconds_unseen :
    ((parseHours twoDigits (mondays ("08:00", "09:00:30") ("09:00:10", "10:00"))).isOk = true ∧
        ¬ Judged twoDigits (mondays ("08:00", "09:00:30") ("09:00:10", "10:00"))) ∧
      parseHours twoDigits (mondays ("08:00:00", "08:00:30") ("09:00", "10:00")) =
          .error ⟨1, hoursOverlap⟩ ∧
        ¬ Judged twoDigits (mondays ("08:00:00", "08:00:30") ("09:00", "10:00")) := by
  have taken : (parseHours twoDigits
      (mondays ("08:00", "09:00:30") ("09:00:10", "10:00"))).isOk = true := by decide +kernel
  have refused : parseHours twoDigits (mondays ("08:00:00", "08:00:30") ("09:00", "10:00")) =
      .error ⟨1, hoursOverlap⟩ := by decide +kernel
  have state : ∀ r₁ r₂ : String × String,
      DayFields.dayState ⟨"ranges", r₁.1, r₁.2, r₂.1, r₂.2⟩ = .ranges := by
    intro r₁ r₂
    change DayState.fromCode "ranges" = .ranges
    decide
  refine ⟨⟨taken, fun judged => ?_⟩, refused, fun judged => ?_⟩
  · have first : readRange twoDigits ("08:00", "09:00:30") =
        some ⟨⟨28800, 0, by decide⟩, ⟨32430, 0, by decide⟩, false⟩ := by decide +kernel
    have second : readRange twoDigits ("09:00:10", "10:00") =
        some ⟨⟨32410, 0, by decide⟩, ⟨36000, 0, by decide⟩, false⟩ := by decide +kernel
    have monday := judged.1.mp (exists_of_isOk taken) _ List.mem_cons_self (state _ _)
    refine apart_iff.mp (monday.apart _ _ first second) |>.1 ?_
    simp [During, naive_lt, naive_le]
  · obtain ⟨i, f, place, there, offends, -⟩ := judged.2 _ refused
    obtain rfl : i = 0 := by
      have : (1 : ℕ) = i + 1 := place
      omega
    obtain rfl := Option.some.inj there
    apply offends
    intro _
    have first : readRange twoDigits ("08:00:00", "08:00:30") =
        some ⟨⟨28800, 0, by decide⟩, ⟨28830, 0, by decide⟩, false⟩ := by decide +kernel
    have second : readRange twoDigits ("09:00", "10:00") =
        some ⟨⟨32400, 0, by decide⟩, ⟨36000, 0, by decide⟩, false⟩ := by decide +kernel
    refine ⟨⟨_, List.mem_cons_self, fun blank => ?_⟩, ?_, ?_⟩
    · exact absurd blank.1 (by decide +kernel)
    · intro p hp _
      rcases List.mem_pair.mp hp with rfl | rfl
      · exact ⟨_, first, by decide⟩
      · exact ⟨_, second, by decide⟩
    · intro a b ha hb
      obtain rfl := Option.some.inj (first.symm.trans ha)
      obtain rfl := Option.some.inj (second.symm.trans hb)
      rw [apart_iff]
      simp [During, naive_lt, naive_le]

end HoursOverlap
