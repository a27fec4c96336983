import BikesNest.DateTimes
import BikesNest.Parking

/-! The queue of the privacy requests shows how long is left to answer each of them. A request is
marked overdue by the whole days that are left, which are none on the last day before the deadline
and on the first one after it. -/

namespace RequestDeadlines

open Parking Outcome DateTimes

inductive PrivacyRequestKind where
  | access | rectification | deletion | export | restriction | objection | consentWithdrawal
  deriving DecidableEq

def PrivacyRequestKind.asCode : PrivacyRequestKind → String
  | .access => "access"
  | .rectification => "rectification"
  | .deletion => "deletion"
  | .export => "export"
  | .restriction => "restriction"
  | .objection => "objection"
  | .consentWithdrawal => "consent_withdrawal"

/-- The text of `privacy_request_kind_label`. -/
def PrivacyRequestKind.labelKey : PrivacyRequestKind → String
  | .access => "privacy.kind.access"
  | .rectification => "privacy.kind.rectification"
  | .deletion => "privacy.kind.deletion"
  | .export => "privacy.kind.export"
  | .restriction => "privacy.kind.restriction"
  | .objection => "privacy.kind.objection"
  | .consentWithdrawal => "privacy.kind.consent"

inductive PrivacyRequestState where
  | «open» | inProgress | completed | declined
  deriving DecidableEq

def PrivacyRequestState.asCode : PrivacyRequestState → String
  | .open => "OPEN"
  | .inProgress => "IN_PROGRESS"
  | .completed => "COMPLETED"
  | .declined => "DECLINED"

/-- The text of `privacy_request_state_label`. -/
def PrivacyRequestState.labelKey : PrivacyRequestState → String
  | .open => "privacy.state.open"
  | .inProgress => "privacy.state.in_progress"
  | .completed => "privacy.state.completed"
  | .declined => "privacy.state.declined"

structure PrivacyRequest where
  id : ℕ
  userId : Option UserId
  kind : PrivacyRequestKind
  state : PrivacyRequestState
  details : Json
  createdAt : DateTime

def privacyRequestSlaDays : ℤ := 15

def privacyRequestDaysLeft (createdAt now : DateTime) : Except Panic ℤ := do
  let due ← addDelta createdAt (privacyRequestSlaDays * day)
  pure (numDays (due.nanos - now.nanos))

/-- What the label of the deadline says. -/
inductive Deadline where
  | closed
  | overdue (days : ℤ)
  | left (days : ℤ)
  deriving DecidableEq

def deadline (isOpen : Bool) (daysLeft : ℤ) : Deadline :=
  if isOpen = false then .closed
  else if daysLeft < 0 then .overdue (-daysLeft)
  else .left daysLeft

/-- The texts of a page in its language. -/
structure Texts where
  t : String → String
  isoDatetimeLabel : DateTime → String

def Deadline.label (texts : Texts) : Deadline → String
  | .closed => ""
  | .overdue days => (texts.t "admin.privacy_requests.overdue").replace "{n}" (toString days)
  | .left days => (texts.t "admin.privacy_requests.days_left").replace "{n}" (toString days)

structure PrivacyRequestVm where
  id : ℕ
  kindCode : String
  kindLabel : String
  stateCode : String
  stateLabel : String
  createdLabel : String
  subjectLabel : String
  subjectUrl : Option String
  details : Option String
  deadlineLabel : String
  isOverdue : Bool

def PrivacyRequestState.isOpen (state : PrivacyRequestState) : Bool :=
  decide (state = .open ∨ state = .inProgress)

/-- `privacy_request_vm`, at one reading of the clock; `labels` names the subjects of the page. -/
def privacyRequestVm (texts : Texts) (labels : UserId → Option String) (r : PrivacyRequest)
    (now : DateTime) : Except Panic PrivacyRequestVm := do
  let isOpen := r.state.isOpen
  let daysLeft ← privacyRequestDaysLeft r.createdAt now
  pure {
    id := r.id
    kindCode := r.kind.asCode
    kindLabel := texts.t r.kind.labelKey
    stateCode := r.state.asCode
    stateLabel := texts.t r.state.labelKey
    createdLabel := texts.isoDatetimeLabel r.createdAt
    subjectLabel := ((r.userId.bind labels).or (r.userId.map fun u => "#" ++ toString u)).getD
      (texts.t "privacy.subject.anonymized")
    subjectUrl := (r.userId.filter fun u => (labels u).isSome).map fun u =>
      "/admin/users?q=" ++ toString u
    details := (((r.details.get "note").bind Json.asStr).map trim).filter fun s => decide (s ≠ "")
    deadlineLabel := (deadline isOpen daysLeft).label texts
    isOverdue := isOpen && decide (daysLeft < 0) }

/-- The deadline as the row shows it. -/
def shownDeadline (r : PrivacyRequest) (now : DateTime) : Except Panic Deadline := do
  let daysLeft ← privacyRequestDaysLeft r.createdAt now
  pure (deadline r.state.isOpen daysLeft)

/-- The deadline of a request. -/
def due (r : PrivacyRequest) : ℤ := r.createdAt.nanos + privacyRequestSlaDays * day

/-- A number of days does not overstate the time left, or understate the delay, by a day. -/
def Deadline.Honest (d : Deadline) (due now : ℤ) : Prop :=
  match d with
  | .closed => True
  | .overdue days => (now - due) - days * day < day
  | .left days => days * day - (due - now) < day

/-- The row is shown, it is marked overdue exactly when it is, and its number is not a day off. -/
def ShownTruthfully (texts : Texts) (labels : UserId → Option String) (r : PrivacyRequest)
    (now : DateTime) : Prop :=
  ∃ (vm : PrivacyRequestVm) (d : Deadline), privacyRequestVm texts labels r now = .ok vm ∧
    (vm.isOverdue = true ↔ r.state.isOpen = true ∧ due r < now.nanos) ∧
    shownDeadline r now = .ok d ∧ vm.deadlineLabel = d.label texts ∧
    (d = .closed ↔ r.state.isOpen = false) ∧ d.Honest (due r) now.nanos

section Deadlines

variable {texts : Texts} {labels : UserId → Option String} {r : PrivacyRequest} {now : DateTime}

theorem daysLeft_ok {days : ℤ} : privacyRequestDaysLeft r.createdAt now = .ok days ↔
    due r ≤ maxUtc ∧ days = numDays (due r - now.nanos) := by
  have forward : 0 ≤ privacyRequestSlaDays * day := by decide
  simp only [privacyRequestDaysLeft, bind_ok, pure_ok]
  constructor
  · rintro ⟨time, sum, rfl⟩
    refine ⟨(addDelta_fits forward).mp ⟨time, sum⟩, ?_⟩
    rw [addDelta_ok.mp sum, due]
  · rintro ⟨fits, rfl⟩
    obtain ⟨time, sum⟩ := (addDelta_fits forward).mpr fits
    exact ⟨time, sum, by rw [addDelta_ok.mp sum, due]⟩

/-- A day is to pass before fewer than no days are left. -/
theorem numDays_neg_iff {delta : ℤ} : numDays delta < 0 ↔ delta ≤ -day := by
  by_cases h : 0 ≤ delta
  · rw [numDays_of_nonneg h]
    unfold day
    omega
  · rw [numDays_of_neg (by omega)]
    unfold day
    omega

/-- The days are never a day off, on either side of the deadline. -/
theorem deadline_honest (isOpen : Bool) :
    (deadline isOpen (numDays (due r - now.nanos))).Honest (due r) now.nanos := by
  have sign : numDays (due r - now.nanos) < 0 ↔ due r - now.nanos ≤ -day := numDays_neg_iff
  unfold deadline
  split
  · trivial
  · split
    · rename_i passed
      rw [sign] at passed
      change now.nanos - due r - -numDays (due r - now.nanos) * day < day
      rw [numDays_of_neg (by unfold day at passed; omega)]
      unfold day
      omega
    · rename_i remaining
      change numDays (due r - now.nanos) * day - (due r - now.nanos) < day
      by_cases h : 0 ≤ due r - now.nanos
      · rw [numDays_of_nonneg h]
        unfold day
        omega
      · rw [numDays_of_neg (by omega)]
        unfold day
        omega

end Deadlines

/-- A row tells the truth about its deadline exactly when the deadline is among the times that
there are, and it is not that of an open request which passed less than a day ago. -/
theorem deadline_shown_iff (texts : Texts) (labels : UserId → Option String) (r : PrivacyRequest)
    (now : DateTime) : ShownTruthfully texts labels r now ↔ due r ≤ maxUtc ∧
      ¬ (r.state.isOpen = true ∧ due r < now.nanos ∧ now.nanos < due r + day) := by
  have marked : ∀ days : ℤ, (r.state.isOpen && decide (days < 0)) = true ↔
      r.state.isOpen = true ∧ days < 0 := fun days => by
    rw [Bool.and_eq_true, decide_eq_true_eq]
  constructor
  · rintro ⟨vm, d, shown, overdue, -⟩
    simp only [privacyRequestVm, bind_ok, pure_ok, daysLeft_ok] at shown
    obtain ⟨days, ⟨fits, rfl⟩, rfl⟩ := shown
    rw [marked, numDays_neg_iff] at overdue
    refine ⟨fits, ?_⟩
    rintro ⟨isOpen, passed, recent⟩
    have whole := (overdue.mpr ⟨isOpen, passed⟩).2
    omega
  · rintro ⟨fits, apart⟩
    have days := (@daysLeft_ok r now _).mpr ⟨fits, rfl⟩
    obtain ⟨vm, shown⟩ : ∃ vm, privacyRequestVm texts labels r now = .ok vm := by
      simp only [privacyRequestVm, bind_ok, pure_ok]
      exact ⟨_, _, days, rfl⟩
    have row := shown
    simp only [privacyRequestVm, bind_ok, pure_ok, daysLeft_ok] at row
    obtain ⟨_, ⟨-, rfl⟩, rfl⟩ := row
    refine ⟨_, deadline r.state.isOpen (numDays (due r - now.nanos)), shown, ?_, ?_, rfl, ?_,
      deadline_honest r.state.isOpen⟩
    · rw [marked, numDays_neg_iff]
      constructor
      · rintro ⟨isOpen, passed⟩
        exact ⟨isOpen, by unfold day at passed; omega⟩
      · rintro ⟨isOpen, passed⟩
        refine ⟨isOpen, ?_⟩
        by_contra recent
        exact apart ⟨isOpen, passed, by omega⟩
    · simp only [shownDeadline, bind_ok, pure_ok]
      exact ⟨_, days, rfl⟩
    · unfold deadline
      cases r.state.isOpen with
      | false => simp
      | true =>
        simp only [Bool.true_eq_false, if_false, iff_false]
        split <;> exact Deadline.noConfusion

/-- A request of the first of January 1970 that is still open. -/
def waiting : PrivacyRequest := ⟨1, none, .access, .open, .obj [], ⟨0, epoch_valid⟩⟩

/-- Noon of the sixteenth of January, half a day after the deadline. -/
def halfDayLate : DateTime := ⟨15 * day + day / 2, by decide⟩

/-- The page without translations. -/
def untranslated : Texts := ⟨id, fun _ => ""⟩

/-- Half a day late, the request has no day left and is not overdue. -/
theorem half_day_unmarked :
    shownDeadline waiting halfDayLate = .ok (.left 0) ∧ due waiting < halfDayLate.nanos ∧
      ¬ ShownTruthfully untranslated (fun _ => none) waiting halfDayLate := by
  have late : due waiting < halfDayLate.nanos := by decide
  refine ⟨by decide +kernel, late, ?_⟩
  rintro ⟨vm, d, shown, overdue, -⟩
  have marked := overdue.mpr ⟨by decide, late⟩
  simp only [privacyRequestVm, bind_ok, pure_ok, daysLeft_ok] at shown
  obtain ⟨_, ⟨-, rfl⟩, rfl⟩ := shown
  exact absurd marked (by decide +kernel)

end RequestDeadlines
