import BikesNest.Clock
import BikesNest.CredentialOps
import BikesNest.Reports

/-! The life of reports under every order of steps of the calls on them, beside erasures of
accounts. The record beside the store says who filed a report and who closed it, which the store
forgets when an account is erased. -/

namespace ReportLife

open Parking Proposal Schema Credentials Outcome Erasure Interleaving Reports

structure Resolution where
  report : ℕ
  moderator : UserId
  outcome : ReportOutcome
  deriving DecidableEq

structure Ledger where
  db : Database
  filer : ℕ → Option UserId
  resolutions : List Resolution

/-- The record of a statement that took its call on. -/
def Ledger.record (l : Ledger) : Phase → Progress Phase Reply → Ledger
  | .create new _, .next _ =>
    { l with filer := Function.update l.filer new.id (some new.reporterId) }
  | .resolve report call, .next _ =>
    { l with resolutions := l.resolutions ++ [⟨report.id, call.moderator, call.outcome⟩] }
  | _, _ => l

def step (env : Env) (phase : Phase) (fault : Option Fault) (l : Ledger) :
    Ledger × Progress Phase Reply :=
  let (db, progress) := stepFaulty env phase fault l.db
  ({ l with db := db }.record phase progress, progress)

/-- An erasure that is refused changes nothing. -/
def eraseIn (casing : Casing) (db : Database) (u : UserId) (now : Instant) : Database :=
  ((anonymize casing db u now).toOption.map Prod.snd).getD db

def program (env : Env) (casing : Casing) :
    Program Ledger Phase Reply (Option Fault) Call (UserId × Instant) where
  entry := entry
  step := step env
  apply op l := { l with db := eraseIn casing l.db op.1 op.2 }

abbrev Reporting := State Ledger ℕ Phase
abbrev ReportEvent := Event ℕ (Option Fault) Call (UserId × Instant)

/-- The account is there and not erased. -/
def Standing (db : Database) (u : UserId) : Prop :=
  ∃ a ∈ db.auth.users.find u, a.accountState ≠ .deleted

instance (db : Database) (u : UserId) : Decidable (Standing db u) :=
  inferInstanceAs (Decidable (∃ a ∈ db.auth.users.find u, _))

def SameTarget (r q : ReportRow) : Prop := r.targetType = q.targetType ∧ r.targetId = q.targetId

instance (r q : ReportRow) : Decidable (SameTarget r q) := inferInstanceAs (Decidable (_ ∧ _))

/-- An erased account neither closes a live report that has lost its reporter, nor files one
beside it. -/
def Admissible (db : Database) : Phase → Prop
  | .get id call => ∀ r ∈ db.reports.find id, ReportRow.live r → r.reporterId = none →
    Standing db call.moderator
  | .create new _ => ∀ r ∈ db.reports, ReportRow.live r → r.reporterId = none →
    SameTarget r new.row → Standing db new.reporterId
  | _ => True

/-- The live reports that name an account to be erased were filed by nobody else. -/
def Erasable (casing : Casing) (db : Database) (u : UserId) : Prop :=
  ¬ lastAdmin db.auth u → shellAddressFree casing db.auth u → ∀ r ∈ db.reports,
    ReportRow.live r → r.names u → r.reporterId = none ∨ r.reporterId = some u

def Guarded (casing : Casing) (s : Reporting) : ReportEvent → Prop
  | .advance t none => ∀ x ∈ s.running.find t, Admissible s.store.db x.phase
  | .other (u, _) => Erasable casing s.store.db u
  | _ => True

instance (db : Database) (phase : Phase) : Decidable (Admissible db phase) :=
  match phase with
  | .get id call => inferInstanceAs (Decidable (∀ r ∈ db.reports.find id, ReportRow.live r →
      r.reporterId = none → Standing db call.moderator))
  | .create new _ => inferInstanceAs (Decidable (∀ r ∈ db.reports.rows, ReportRow.live r →
      r.reporterId = none → SameTarget r new.row → Standing db new.reporterId))
  | .targetExists _ _ | .claim _ _ _ | .resolve _ _ | .hide _ _ | .audit _ => .isTrue trivial

instance (casing : Casing) (db : Database) (u : UserId) : Decidable (Erasable casing db u) :=
  inferInstanceAs (Decidable (_ → _ → ∀ r ∈ db.reports.rows, ReportRow.live r → r.names u →
    r.reporterId = none ∨ r.reporterId = some u))

instance (casing : Casing) (s : Reporting) (e : ReportEvent) : Decidable (Guarded casing s e) :=
  match e with
  | .advance t none => inferInstanceAs (Decidable (∀ x ∈ s.running.find t, _))
  | .other (u, _) => inferInstanceAs (Decidable (Erasable casing s.store.db u))
  | .begin _ _ | .advance _ (some _) | .drop _ => .isTrue trivial

/-- The moves that a step can make on the state of a report. -/
inductive Moves : ReportState → ReportState → Prop where
  | stays (a) : Moves a a
  | claimed : Moves .opened .underReview
  | resolved : Moves .underReview .resolved
  | dismissed : Moves .underReview .dismissed

/-- What the ledger says after a step. -/
structure Lawful (l l' : Ledger) : Prop where
  moves : ∀ id r, l.db.reports.find id = some r →
    ∃ r', l'.db.reports.find id = some r' ∧ Moves r.state r'.state ∧
      (ReportRow.live r → ¬ ReportRow.live r' → ∃ x ∈ l'.resolutions, x.report = id)
  once : (l'.resolutions.map Resolution.report).Nodup
  notOwn : ∀ x ∈ l'.resolutions, l'.filer x.report ≠ some x.moderator
  single : ∀ r ∈ l'.db.reports, ∀ q ∈ l'.db.reports, ReportRow.live r → ReportRow.live q →
    SameTarget r q → ∀ u, l'.filer r.id = some u → l'.filer q.id = some u → r = q

/-- A live report names its filer, unless that account is erased. -/
def Named (l : Ledger) (r : ReportRow) : Prop :=
  r.reporterId = l.filer r.id ∨
    r.reporterId = none ∧ ∀ u, l.filer r.id = some u → ¬ Standing l.db u

structure Kept (l : Ledger) : Prop where
  named : ∀ r ∈ l.db.reports, ReportRow.live r → Named l r
  closed : ∀ x ∈ l.resolutions, ∃ r, l.db.reports.find x.report = some r ∧ ¬ ReportRow.live r
  once : (l.resolutions.map Resolution.report).Nodup
  notOwn : ∀ x ∈ l.resolutions, l.filer x.report ≠ some x.moderator
  single : ∀ r ∈ l.db.reports, ∀ q ∈ l.db.reports, ReportRow.live r → ReportRow.live q →
    SameTarget r q → ∀ u, l.filer r.id = some u → l.filer q.id = some u → r = q

/-- What the unique index keeps at all times. -/
def Indexed (db : Database) : Prop :=
  ∀ r ∈ db.reports, ∀ q ∈ db.reports, ReportRow.live r → ReportRow.live q → SameTarget r q →
    ∀ u, r.reporterId = some u → q.reporterId = some u → r = q

/-- The record at the start: a report was filed by whom it names. -/
def opening (db : Database) : Ledger :=
  ⟨db, fun id => (db.reports.find id).bind ReportRow.reporterId, []⟩

theorem opening_kept {db : Database} (indexed : Indexed db) : Kept (opening db) := by
  have filer {r : ReportRow} (hr : r ∈ db.reports) : (opening db).filer r.id = r.reporterId := by
    simp only [opening, Table.find_of_mem hr, Option.bind_some]
  refine ⟨fun r hr _ => .inl (filer hr).symm, by simp [opening], by simp [opening],
    by simp [opening], ?_⟩
  intro r hr q hq liver liveq same u filedr filedq
  rw [filer hr] at filedr
  rw [filer hq] at filedq
  exact indexed r hr q hq liver liveq same u filedr filedq

/-- A call that is about to close a report works on one that is there, and not on its own. -/
def MayClose : Phase → Ledger → Prop
  | .resolve report call, l => ∃ r, l.db.reports.find report.id = some r ∧
      (ReportRow.live r → l.filer report.id ≠ some call.moderator)
  | _, _ => True

variable {env : Env} {casing : Casing} {l l' : Ledger} {db db' : Database}

/-! Steps that leave the reports alone. -/

/-- Everything that the record is about is as it was. -/
structure Quiet (l l' : Ledger) : Prop where
  reports : l'.db.reports = l.db.reports
  users : l'.db.auth.users = l.db.auth.users
  filer : l'.filer = l.filer
  resolutions : l'.resolutions = l.resolutions

theorem Quiet.standing (quiet : Quiet l l') (u : UserId) : Standing l'.db u ↔ Standing l.db u := by
  simp [Standing, quiet.users]

theorem Quiet.kept (quiet : Quiet l l') (kept : Kept l) : Kept l' := by
  obtain ⟨named, closed, once, notOwn, single⟩ := kept
  constructor
  · intro r hr live
    rw [quiet.reports] at hr
    unfold Named
    simp only [quiet.filer, quiet.standing]
    exact named r hr live
  · rw [quiet.resolutions, quiet.reports]
    exact closed
  · rw [quiet.resolutions]
    exact once
  · rw [quiet.resolutions, quiet.filer]
    exact notOwn
  · rw [quiet.reports, quiet.filer]
    exact single

/-- What a step leaves of the reports: they stay, their states move, and filers stay. -/
structure Carries (l l' : Ledger) : Prop where
  moves : ∀ id r, l.db.reports.find id = some r →
    ∃ r', l'.db.reports.find id = some r' ∧ Moves r.state r'.state ∧
      (ReportRow.live r → ¬ ReportRow.live r' → ∃ x ∈ l'.resolutions, x.report = id)
  filers : ∀ id r, l.db.reports.find id = some r → l'.filer id = l.filer id

theorem Quiet.carries (quiet : Quiet l l') : Carries l l' := by
  constructor
  · intro id r found
    rw [quiet.reports]
    exact ⟨r, found, .stays _, fun live dead => absurd live dead⟩
  · intro id r _
    rw [quiet.filer]

theorem lawful_of (carries : Carries l l') (kept : Kept l') : Lawful l l' :=
  ⟨carries.moves, kept.once, kept.notOwn, kept.single⟩

theorem live_of_moves {a b : ReportState} (moves : Moves a b) (r r' : ReportRow)
    (before : r.state = a) (after : r'.state = b) (live : ReportRow.live r') : ReportRow.live r := by
  unfold ReportRow.live at live ⊢
  rw [before]
  rw [after] at live
  cases moves with
  | stays => exact live
  | claimed => exact .inl rfl
  | resolved | dismissed => exact .inr rfl

/-- A call that may close a report still may after a step of another. -/
theorem Carries.mayClose (carries : Carries l l') {phase : Phase} (may : MayClose phase l) :
    MayClose phase l' := by
  cases phase with
  | resolve report call =>
    obtain ⟨r, found, other⟩ := may
    obtain ⟨r', found', moved, -⟩ := carries.moves _ r found
    refine ⟨r', found', fun live => ?_⟩
    rw [carries.filers _ r found]
    exact other (live_of_moves moved r r' rfl rfl live)
  | _ => trivial

/-! Steps that change a report. -/

/-- Live reports that come from live reports, under the same record of filers. -/
theorem Kept.follow (kept : Kept l) (filer : l'.filer = l.filer)
    (from' : ∀ q ∈ l'.db.reports, ReportRow.live q → ∃ r ∈ l.db.reports, ReportRow.live r ∧
      r.id = q.id ∧ SameTarget r q ∧ (Named l r → Named l' q))
    (closed : ∀ x ∈ l'.resolutions, ∃ r, l'.db.reports.find x.report = some r ∧ ¬ ReportRow.live r)
    (once : (l'.resolutions.map Resolution.report).Nodup)
    (notOwn : ∀ x ∈ l'.resolutions, l.filer x.report ≠ some x.moderator) : Kept l' := by
  refine ⟨?_, closed, once, filer ▸ notOwn, ?_⟩
  · intro q hq live
    obtain ⟨r, hr, live', -, -, names⟩ := from' q hq live
    exact names (kept.named r hr live')
  · intro q hq p hp liveq livep same u filedq filedp
    obtain ⟨r, hr, liver, idr, targetr, -⟩ := from' q hq liveq
    obtain ⟨s, hs, lives, ids, targets, -⟩ := from' p hp livep
    rw [filer, ← idr] at filedq
    rw [filer, ← ids] at filedp
    have both : SameTarget r s := ⟨targetr.1.trans (same.1.trans targets.1.symm),
      targetr.2.trans (same.2.trans targets.2.symm)⟩
    have eq := kept.single r hr s hs liver lives both u filedq filedp
    exact Table.eq_of_key_eq hq hp (by rw [← idr, ← ids, eq])

section SetReport

variable {id : ℕ} {f : ReportRow → ReportRow} (hf : ∀ r, (f r).id = r.id) {r₀ : ReportRow}

/-- A change of one report, after which it lives only if it did before. -/
theorem kept_setReport (kept : Kept l) (found : l.db.reports.find id = some r₀)
    (live : ReportRow.live r₀) (keeps : ∀ r, (f r).reporterId = r.reporterId ∧ SameTarget r (f r))
    (reports : l'.db.reports = (setReport l.db id f hf).reports)
    (users : l'.db.auth.users = l.db.auth.users) (filer : l'.filer = l.filer)
    (once : (l'.resolutions.map Resolution.report).Nodup)
    (new : ∀ x ∈ l'.resolutions, x ∈ l.resolutions ∨
      x.report = id ∧ ¬ ReportRow.live (f r₀) ∧ l.filer id ≠ some x.moderator) : Kept l' := by
  have standing (u : UserId) : Standing l'.db u ↔ Standing l.db u := by simp [Standing, users]
  have after (k : ℕ) : l'.db.reports.find k =
      (l.db.reports.find k).map fun r => if r.id = id then f r else r := by
    rw [reports, setReport, Table.find_update]
    simp
  refine kept.follow filer ?_ ?_ once ?_
  · intro q hq alive
    rw [reports] at hq
    simp only [setReport] at hq
    obtain ⟨r, hr, rfl⟩ := Table.mem_update.mp hq
    by_cases hit : r.id = id
    · obtain rfl : r = r₀ := by
        rw [← hit, Table.find_of_mem hr] at found
        exact Option.some.inj found
      simp only [hit, decide_true, if_true]
      refine ⟨r, hr, live, by rw [hf, hit], (keeps r).2, fun named => ?_⟩
      unfold Named at named ⊢
      rw [(keeps r).1, filer, hf]
      simpa only [standing] using named
    · simp only [hit, decide_false, Bool.false_eq_true, if_false] at alive ⊢
      refine ⟨r, hr, alive, rfl, ⟨rfl, rfl⟩, fun named => ?_⟩
      unfold Named at named ⊢
      rw [filer]
      simpa only [standing] using named
  · intro x hx
    rcases new x hx with old | ⟨rfl, dead, -⟩
    · obtain ⟨r, there, dead⟩ := kept.closed x old
      refine ⟨r, ?_, dead⟩
      rw [after, there, Option.map_some, if_neg]
      rintro hit
      rw [← (Table.find_eq_some.mp there).2, hit, found] at there
      cases there
      exact dead live
    · refine ⟨f r₀, ?_, dead⟩
      rw [after, found, Option.map_some, if_pos (Table.find_eq_some.mp found).2]
  · intro x hx
    rcases new x hx with old | ⟨rfl, -, other⟩
    · exact kept.notOwn x old
    · exact other

theorem carries_setReport (found : l.db.reports.find id = some r₀)
    (moved : Moves r₀.state (f r₀).state)
    (reports : l'.db.reports = (setReport l.db id f hf).reports) (filer : l'.filer = l.filer)
    (recorded : ¬ ReportRow.live (f r₀) → ∃ x ∈ l'.resolutions, x.report = id) :
    Carries l l' := by
  constructor
  · intro k r there
    rw [reports, setReport, Table.find_update, there, Option.map_some]
    refine ⟨_, rfl, ?_⟩
    have key := (Table.find_eq_some.mp there).2
    by_cases hit : r.id = id
    · obtain rfl : k = id := key.symm.trans hit
      obtain rfl : r = r₀ := Option.some.inj (there.symm.trans found)
      simp only [hit, decide_true, if_true]
      exact ⟨moved, fun _ dead => recorded dead⟩
    · simp only [hit, decide_false, Bool.false_eq_true, if_false]
      exact ⟨.stays _, fun live dead => absurd live dead⟩
  · intro k r _
    rw [filer]

end SetReport

theorem claim_kept {id : ℕ} {moderator : UserId} (kept : Kept l)
    (h : claimReport l.db id moderator = .ok db') :
    Kept { l with db := db' } ∧ Carries l { l with db := db' } := by
  obtain ⟨⟨r, found, state⟩, rfl⟩ := claimReport_ok h
  constructor
  · exact kept_setReport (f := ReportRow.claim moderator) (fun _ => rfl) kept found (.inl state)
      (fun _ => ⟨rfl, rfl, rfl⟩) rfl rfl rfl kept.once fun x hx => .inl hx
  · refine carries_setReport (f := ReportRow.claim moderator) (fun _ => rfl) found ?_ rfl rfl
      fun dead => absurd (.inr rfl) dead
    rw [state]
    exact .claimed

/-- A report is closed by someone who did not file it. -/
theorem resolve_kept {id : ℕ} {call : Resolving} (kept : Kept l)
    (h : resolveRow l.db id call.moderator call.note call.outcome = .ok db')
    (other : ∀ r, l.db.reports.find id = some r → ReportRow.live r →
      l.filer id ≠ some call.moderator) :
    let l' : Ledger := { l with
      db := db', resolutions := l.resolutions ++ [⟨id, call.moderator, call.outcome⟩] }
    Kept l' ∧ Carries l l' := by
  obtain ⟨-, ⟨r, found, state⟩, -, rfl⟩ := resolveRow_ok.mp h
  have live : ReportRow.live r := .inr state
  have dead : ∀ outcome : ReportOutcome, ¬ (outcome.state = .opened ∨ outcome.state = .underReview) := by
    intro outcome
    cases outcome <;> simp [ReportOutcome.state]
  constructor
  · refine kept_setReport (f := ReportRow.resolve call.moderator call.note call.outcome)
      (fun _ => rfl) kept found live (fun _ => ⟨rfl, rfl, rfl⟩) rfl rfl rfl ?_ fun x hx => ?_
    · rw [List.map_append, List.nodup_append]
      refine ⟨kept.once, by simp, ?_⟩
      rintro a ha b hb rfl
      obtain ⟨x, hx, rfl⟩ := List.mem_map.mp ha
      obtain ⟨q, there, closed⟩ := kept.closed x hx
      have same : x.report = id := by simpa using hb
      rw [same, found] at there
      cases there
      exact closed live
    · rcases List.mem_append.mp hx with old | new
      · exact .inl old
      · obtain rfl := List.mem_singleton.mp new
        exact .inr ⟨rfl, dead _, other r found live⟩
  · refine carries_setReport (f := ReportRow.resolve call.moderator call.note call.outcome)
      (fun _ => rfl) found ?_ rfl rfl fun _ => ?_
    swap
    · exact ⟨⟨id, call.moderator, call.outcome⟩, by simp, rfl⟩
    rw [state]
    change Moves .underReview call.outcome.state
    cases call.outcome
    · exact .resolved
    · exact .dismissed

/-- A new report: the index sees every live report of its filer, but those of erased accounts. -/
theorem create_kept {n : NewReport} (kept : Kept l) (h : createReport l.db n = .ok db')
    (standing : ∀ r ∈ l.db.reports, ReportRow.live r → r.reporterId = none →
      SameTarget r n.row → Standing l.db n.reporterId) :
    let l' : Ledger := { l with
      db := db', filer := Function.update l.filer n.id (some n.reporterId) }
    Kept l' ∧ Carries l l' := by
  obtain ⟨indexed, reports, inserted, rfl⟩ := createReport_ok h
  intro l'
  have fresh : l.db.reports.find n.id = none := (Table.insert_eq_some.mp inserted).1
  have old {k : ℕ} {r : ReportRow} (found : l.db.reports.find k = some r) :
      l'.filer k = l.filer k := by
    refine Function.update_of_ne ?_ _ _
    rintro rfl
    rw [fresh] at found
    cases found
  have oldRow {r : ReportRow} (hr : r ∈ l.db.reports) : l'.filer r.id = l.filer r.id :=
    old (Table.find_of_mem hr)
  have own : l'.filer n.row.id = some n.reporterId := Function.update_self _ _ _
  -- a live report of the filer's on the target would have been in the index
  have alone (r : ReportRow) (hr : r ∈ l.db.reports) (live : ReportRow.live r)
      (same : SameTarget r n.row) : l'.filer r.id ≠ some n.reporterId := by
    intro filed
    rw [oldRow hr] at filed
    rcases kept.named r hr live with named | ⟨lost, erased⟩
    · have taken : dedupes n r = true :=
        decide_eq_true ⟨live, named.trans filed, same.1, same.2⟩
      rw [indexed r hr] at taken
      cases taken
    · exact erased _ filed (standing r hr live lost same)
  constructor
  · constructor
    · intro r hr live
      rcases (Table.mem_insert inserted).mp hr with hr | rfl
      · have named := kept.named r hr live
        unfold Named at named ⊢
        rw [oldRow hr]
        exact named
      · exact .inl own.symm
    · intro x hx
      obtain ⟨r, found, dead⟩ := kept.closed x hx
      exact ⟨r, Table.find_insert_of_find inserted found, dead⟩
    · exact kept.once
    · intro x hx
      obtain ⟨r, found, -⟩ := kept.closed x hx
      rw [old found]
      exact kept.notOwn x hx
    · intro r hr q hq liver liveq same u filedr filedq
      rcases (Table.mem_insert inserted).mp hr with hr | rfl <;>
        rcases (Table.mem_insert inserted).mp hq with hq | rfl
      · rw [oldRow hr] at filedr
        rw [oldRow hq] at filedq
        exact kept.single r hr q hq liver liveq same u filedr filedq
      · rw [own] at filedq
        exact absurd (filedr.trans filedq.symm) (alone r hr liver same)
      · rw [own] at filedr
        exact absurd (filedq.trans filedr.symm) (alone q hq liveq ⟨same.1.symm, same.2.symm⟩)
      · rfl
  · constructor
    · intro k r found
      exact ⟨r, Table.find_insert_of_find inserted found, .stays _,
        fun live dead => absurd live dead⟩
    · intro k r found
      exact old found

/-! Erasures. -/

theorem eraseIn_cases (casing : Casing) (db : Database) (u : UserId) (now : Instant) :
    eraseIn casing db u now = db ∨ ¬ lastAdmin db.auth u ∧ shellAddressFree casing db.auth u ∧
      eraseIn casing db u now = db.erase u now := by
  unfold eraseIn
  cases h : anonymize casing db u now with
  | error e => exact .inl rfl
  | ok result =>
    obtain ⟨report, db'⟩ := result
    obtain ⟨guard, free, -, rfl⟩ := anonymize_ok.mp h
    exact .inr ⟨guard, free, rfl⟩

/-- Nobody stands up again, and the erased account does not stand. -/
theorem standing_erase {u v : UserId} {now : Instant} (h : Standing (db.erase u now) v) :
    Standing db v ∧ v ≠ u := by
  obtain ⟨a, found, state⟩ := h
  simp only [Database.erase, eraseAccount, find_setAccount, Option.mem_def] at found
  obtain ⟨b, there, rfl⟩ := Option.map_eq_some_iff.mp found
  by_cases hit : b.id = u
  · rw [if_pos hit] at state
    exact absurd rfl state
  · rw [if_neg hit] at state
    refine ⟨⟨b, there, state⟩, ?_⟩
    rintro rfl
    exact hit (Table.find_eq_some.mp there).2

theorem erase_kept {u : UserId} {now : Instant} (kept : Kept l)
    (alone : ∀ r ∈ l.db.reports, ReportRow.live r → r.names u →
      r.reporterId = none ∨ r.reporterId = some u) :
    Kept { l with db := l.db.erase u now } ∧ Carries l { l with db := l.db.erase u now } := by
  have after (k : ℕ) : (l.db.erase u now).reports.find k =
      (l.db.reports.find k).map fun r => if r.names u then r.unattribute else r := by
    refine (Table.find_update l.db.reports (fun r => decide (r.names u)) ReportRow.unattribute
      (fun _ => rfl) k).trans ?_
    simp only [decide_eq_true_eq]
  have same (r : ReportRow) : (if r.names u then r.unattribute else r).state = r.state := by
    split <;> rfl
  constructor
  · refine kept.follow rfl ?_ ?_ kept.once kept.notOwn
    · intro q hq live
      simp only [Database.erase] at hq
      obtain ⟨r, hr, rfl⟩ := Table.mem_update.mp hq
      by_cases hit : r.names u
      · simp only [hit, decide_true, if_true] at live ⊢
        refine ⟨r, hr, live, rfl, ⟨rfl, rfl⟩, fun named => .inr ⟨rfl, ?_⟩⟩
        intro v filed stands
        obtain ⟨stood, other⟩ := standing_erase stands
        rcases named with named | ⟨-, erased⟩
        · rcases alone r hr live hit with lost | mine
          · exact absurd (lost.symm.trans (named.trans filed)) (by simp)
          · exact other (Option.some.inj (filed.symm.trans (named.symm.trans mine)))
        · exact erased v filed stood
      · simp only [hit, decide_false, Bool.false_eq_true, if_false] at live ⊢
        refine ⟨r, hr, live, rfl, ⟨rfl, rfl⟩, fun named => ?_⟩
        rcases named with named | ⟨lost, erased⟩
        · exact .inl named
        · exact .inr ⟨lost, fun v filed stands => erased v filed (standing_erase stands).1⟩
    · intro x hx
      obtain ⟨r, found, dead⟩ := kept.closed x hx
      refine ⟨_, by rw [after, found]; rfl, ?_⟩
      unfold ReportRow.live at dead ⊢
      rwa [same]
  · constructor
    · intro k r found
      refine ⟨_, by rw [after, found]; rfl, ?_, fun live dead => ?_⟩
      · rw [same]
        exact .stays _
      · unfold ReportRow.live at live dead
        rw [same] at dead
        exact absurd live dead
    · intro k r _
      rfl

/-! Every step of a call, and every run. -/

/-- What a step of a call does to the record, and where it takes the call. -/
structure StepKept (l : Ledger) (r : Ledger × Progress Phase Reply) : Prop where
  kept : Kept r.1
  carries : Carries l r.1
  may : ∀ next, r.2 = .next next → MayClose next r.1

theorem Quiet.step {r : Ledger × Progress Phase Reply} (quiet : Quiet l r.1) (kept : Kept l)
    (may : ∀ next, r.2 = .next next → MayClose next r.1) : StepKept l r :=
  ⟨quiet.kept kept, quiet.carries, may⟩

theorem Quiet.refl (l : Ledger) : Quiet l l := ⟨rfl, rfl, rfl, rfl⟩

theorem stepKept_done (kept : Kept l) (reply : Reply) : StepKept l (l, .done reply) :=
  (Quiet.refl l).step kept fun _ h => by cases h

theorem stepKept_create {n : NewReport} {auditId : ℕ} (kept : Kept l)
    (admissible : Admissible l.db (.create n auditId)) :
    StepKept l (step env (.create n auditId) none l) := by
  cases h : createReport l.db n with
  | error e =>
    have eq : step env (.create n auditId) none l = (l, .done (.error (repeated e))) := by
      simp only [step, stepFaulty, Reports.step, attempt, h, Except.mapError]
      rfl
    exact eq ▸ stepKept_done kept _
  | ok db' =>
    obtain ⟨next, carried⟩ := create_kept kept h admissible
    have eq : step env (.create n auditId) none l = (⟨db', Function.update l.filer n.id
        (some n.reporterId), l.resolutions⟩,
          .next (.audit (auditRow auditId n.reporterId "report.created" n.id))) := by
      simp only [step, stepFaulty, Reports.step, attempt, h, Except.mapError]
      rfl
    rw [eq]
    exact ⟨next, carried, fun _ h => by cases h; trivial⟩

theorem stepKept_claim {moderator : UserId} {id auditId : ℕ} (kept : Kept l) :
    StepKept l (step env (.claim moderator id auditId) none l) := by
  cases h : claimReport l.db id moderator with
  | error e =>
    have eq : step env (.claim moderator id auditId) none l = (l, .done (.error e)) := by
      simp only [step, stepFaulty, Reports.step, attempt, h]
      rfl
    exact eq ▸ stepKept_done kept _
  | ok db' =>
    obtain ⟨next, carried⟩ := claim_kept kept h
    have eq : step env (.claim moderator id auditId) none l =
        ({ l with db := db' }, .next (.audit (auditRow auditId moderator "report.claimed" id))) := by
      simp only [step, stepFaulty, Reports.step, attempt, h]
      rfl
    rw [eq]
    exact ⟨next, carried, fun _ h => by cases h; trivial⟩

/-- The guard on a moderator's own report, which an erased reporter leaves to the record. -/
theorem stepKept_get {id : ℕ} {call : Resolving} (kept : Kept l)
    (admissible : Admissible l.db (.get id call)) :
    StepKept l (step env (.get id call) none l) := by
  cases found : l.db.reports.find id with
  | none =>
    have eq : step env (.get id call) none l = (l, .done (.error .notFound)) := by
      simp only [step, stepFaulty, Reports.step, found]
      rfl
    exact eq ▸ stepKept_done kept _
  | some report =>
    obtain ⟨there, key⟩ := Table.find_eq_some.mp found
    by_cases own : report.reporterId = some call.moderator
    · have eq : step env (.get id call) none l = (l, .done (.error .selfResolve)) := by
        simp only [step, stepFaulty, Reports.step, found, own, if_true]
        rfl
      exact eq ▸ stepKept_done kept _
    · have eq : step env (.get id call) none l = (l, .next (.resolve report call)) := by
        simp only [step, stepFaulty, Reports.step, found, own, if_false]
        rfl
      rw [eq]
      refine (Quiet.refl l).step kept fun next h => ?_
      cases h
      refine ⟨report, key ▸ found, fun live filed => ?_⟩
      rcases kept.named report there live with named | ⟨lost, erased⟩
      · exact own (named.trans filed)
      · exact erased _ filed (admissible report found live lost)

theorem stepKept_resolve {report : ReportRow} {call : Resolving} (kept : Kept l)
    (may : MayClose (.resolve report call) l) :
    StepKept l (step env (.resolve report call) none l) := by
  have onward : ∀ next (l' : Ledger), afterResolve report call = .next next → MayClose next l' := by
    intro next l' h
    unfold afterResolve at h
    split at h <;> cases h <;> trivial
  cases h : resolveRow l.db report.id call.moderator call.note call.outcome with
  | error e =>
    have eq : step env (.resolve report call) none l = (l, .done (.error e)) := by
      simp only [step, stepFaulty, Reports.step, attempt, h]
      rfl
    exact eq ▸ stepKept_done kept _
  | ok db' =>
    obtain ⟨r, found, other⟩ := may
    obtain ⟨next, carried⟩ := resolve_kept kept h fun r' found' live => by
      obtain rfl : r' = r := Option.some.inj (found'.symm.trans found)
      exact other live
    have eq : step env (.resolve report call) none l = ({ l with
        db := db', resolutions := l.resolutions ++ [⟨report.id, call.moderator, call.outcome⟩] },
        afterResolve report call) := by
      simp only [step, stepFaulty, Reports.step, attempt, h, afterResolve]
      split <;> rfl
    rw [eq]
    exact ⟨next, carried, fun n h => onward n _ h⟩

/-- A statement on something else than reports. -/
theorem stepKept_quiet {phase : Phase} {t : Except ReportError Database}
    {after : Progress Phase Reply} (kept : Kept l)
    (quiet : ∀ db', t = .ok db' → db'.reports = l.db.reports ∧ db'.auth = l.db.auth)
    (onward : ∀ next (l' : Ledger), after = .next next → MayClose next l')
    (unrecorded : ∀ (l' : Ledger) progress, l'.record phase progress = l') :
    StepKept l (let (db, progress) := attempt l.db t after
      ({ l with db := db }.record phase progress, progress)) := by
  cases t with
  | error e =>
    simp only [attempt, unrecorded]
    exact stepKept_done kept _
  | ok db' =>
    obtain ⟨reports, auth⟩ := quiet db' rfl
    simp only [attempt, unrecorded]
    exact Quiet.step ⟨reports, by rw [auth], rfl, rfl⟩ kept fun next h => onward next _ h

/-- One statement keeps the record, and what it takes its call on to may be done next. -/
theorem stepKept {phase : Phase} (kept : Kept l) (may : MayClose phase l)
    (admissible : Admissible l.db phase) : StepKept l (step env phase none l) := by
  cases phase with
  | targetExists new auditId =>
    by_cases there : targetExists l.db new.targetType new.targetId
    · have eq : step env (.targetExists new auditId) none l = (l, .next (.create new auditId)) := by
        simp only [step, stepFaulty, Reports.step, there, if_true]
        rfl
      rw [eq]
      exact (Quiet.refl l).step kept fun _ h => by cases h; trivial
    · have eq : step env (.targetExists new auditId) none l =
          (l, .done (.error .targetNotFound)) := by
        simp only [step, stepFaulty, Reports.step, there]
        rfl
      exact eq ▸ stepKept_done kept _
  | create new auditId => exact stepKept_create kept admissible
  | claim moderator id auditId => exact stepKept_claim kept
  | get id call => exact stepKept_get kept admissible
  | resolve report call => exact stepKept_resolve kept may
  | hide report call =>
    refine stepKept_quiet kept (fun db' h => ?_) (fun _ _ h => by cases h; trivial) fun _ _ => rfl
    rcases tolerated_ok h with done | rfl
    · obtain ⟨reports, auth, -⟩ := hideTarget_frame done
      exact ⟨reports, auth⟩
    · exact ⟨rfl, rfl⟩
  | audit row =>
    exact stepKept_quiet kept (fun db' h => recordAudit_frame h) (fun _ _ h => by cases h)
      fun _ _ => rfl

theorem stepKept_advance (phase : Phase) (fault : Option Fault) (kept : Kept l)
    (may : MayClose phase l) (admissible : fault = none → Admissible l.db phase) :
    StepKept l (step env phase fault l) := by
  cases fault with
  | none => exact stepKept kept may (admissible rfl)
  | some fault =>
    have eq : step env phase (some fault) l = (l, .done (.error (failure phase fault))) := by
      cases phase <;> rfl
    exact eq ▸ stepKept_done kept _

theorem eraseIn_kept {u : UserId} {now : Instant} (kept : Kept l)
    (erasable : Erasable casing l.db u) :
    Kept { l with db := eraseIn casing l.db u now } ∧
      Carries l { l with db := eraseIn casing l.db u now } := by
  rcases eraseIn_cases casing l.db u now with same | ⟨guard, free, done⟩
  · rw [same]
    exact ⟨kept, (Quiet.refl l).carries⟩
  · rw [done]
    exact erase_kept kept (erasable guard free)

/-- One event: the store it leaves is kept, and carries on from the one before. -/
theorem fire_kept {s : Reporting} {e : ReportEvent} (kept : Kept s.store)
    (ready : Asserts MayClose s) (guarded : Guarded casing s e) :
    Kept (fire (program env casing) s e).store ∧
      Carries s.store (fire (program env casing) s e).store := by
  have still : Kept s.store ∧ Carries s.store s.store := ⟨kept, (Quiet.refl _).carries⟩
  cases e with
  | begin t call =>
    simp only [fire]
    split
    · split <;> exact still
    · exact still
  | advance t fault =>
    simp only [fire]
    split
    · rename_i x found
      rw [settle_store]
      have stepped : StepKept s.store (step env x.phase fault s.store) := by
        refine stepKept_advance x.phase fault kept (ready x (Table.find_eq_some.mp found).1) ?_
        rintro rfl
        exact guarded x found
      exact ⟨stepped.kept, stepped.carries⟩
    · exact still
  | drop t => exact still
  | other op => exact eraseIn_kept kept guarded

/-- No call starts with closing a report. -/
theorem entry_mayClose {call : Call} {phase : Phase} (h : entry call = .next phase) :
    MayClose phase l := by
  have checked {t : Except ReportError Phase} (h : ofChecks t = .next phase) : t = .ok phase := by
    cases t <;> cases h
    rfl
  cases call with
  | submitReport user limited maxLen id targetType targetId reason description auditId =>
    have h := checked h
    simp only [bind_ok, pure_ok] at h
    obtain ⟨_, -, _, -, _, -, _, -, rfl⟩ := h
    trivial
  | claimReport moderator id auditId =>
    have h := checked h
    simp only [bind_ok, pure_ok] at h
    obtain ⟨_, -, rfl⟩ := h
    trivial
  | resolveReport moderator id outcome note clock auditId =>
    have h := checked h
    simp only [bind_ok, pure_ok] at h
    obtain ⟨_, -, rfl⟩ := h
    trivial

theorem fire_ready {s : Reporting} {e : ReportEvent} (kept : Kept s.store)
    (ready : Asserts MayClose s) (guarded : Guarded casing s e) :
    Asserts MayClose (fire (program env casing) s e) := by
  refine fire_asserts ready e ?_ ?_ ?_
  · intro call phase started
    exact entry_mayClose started
  · rintro t fault x rfl found store next stepped
    have after : StepKept s.store (step env x.phase fault s.store) := by
      refine stepKept_advance x.phase fault kept (ready x (Table.find_eq_some.mp found).1) ?_
      rintro rfl
      exact guarded x found
    change step env x.phase fault s.store = (store, .next next) at stepped
    rw [stepped] at after
    exact after.may next rfl
  · intro x _ may
    exact (fire_kept kept ready guarded).2.mayClose may

/-- Over every run whose steps are guarded, reports only move on, are closed at most once and
not by who filed them, and nobody has two live reports on one target. -/
theorem reports_lawful (env : Env) (casing : Casing) (db : Database) (indexed : Indexed db)
    (events : List ReportEvent)
    (guarded : Along (program env casing) (Guarded casing) (initial (opening db)) events) :
    Along (program env casing)
      (fun s e => Lawful s.store (fire (program env casing) s e).store)
      (initial (opening db)) events := by
  refine along_of_invariant (I := fun s => Kept s.store ∧ Asserts MayClose s) ?_ ?_
    ⟨opening_kept indexed, initial_asserts MayClose _⟩ guarded
  · rintro s e ⟨kept, ready⟩ allowed
    exact ⟨(fire_kept kept ready allowed).1, fire_ready kept ready allowed⟩
  · rintro s e ⟨kept, ready⟩ allowed
    obtain ⟨next, carried⟩ : Kept (fire (program env casing) s e).store ∧
        Carries s.store (fire (program env casing) s e).store := fire_kept kept ready allowed
    exact lawful_of carried next

/-- Two moderators, and a review that can be reported. -/
def moderated : Database :=
  let account (id : UserId) (email : String) : AccountRow :=
    ⟨id, email, none, .active, some 0, none, none, .en, true, none, 0⟩
  { Erasure.empty with
    auth := { Credentials.empty with
      users := ⟨[account 1 "ada@bikes.org", account 2 "eve@bikes.org"], CredentialOps.two_distinct⟩
      roles := ⟨[⟨1, .moderator, none⟩, ⟨2, .moderator, none⟩], by decide⟩ }
    reviews := ⟨[⟨7, 1, some 1, 1, "Never go there", true, .active⟩], by decide⟩ }

def ada : Reports.AuthenticatedUser := ⟨1, [.moderator]⟩

def eve : Reports.AuthenticatedUser := ⟨2, [.moderator]⟩

/-- Eve reports the review, Ada takes the report on. -/
def filing : List ReportEvent :=
  [.begin 0 (.submitReport eve false 1000 5 .review 7 "spam" none 50),
    .advance 0 none, .advance 0 none, .advance 0 none,
    .begin 1 (.claimReport ada 5 51), .advance 1 none, .advance 1 none]

def closing (moderator : Reports.AuthenticatedUser) : List ReportEvent :=
  [.begin 2 (.resolveReport moderator 5 .dismissed "fine" 9 52),
    .advance 2 none, .advance 2 none, .advance 2 none]

theorem reports_lawful_ada :
    Along (program Clock.env CredentialOps.asciiCasing)
      (fun s e => Lawful s.store (fire (program Clock.env CredentialOps.asciiCasing) s e).store)
      (initial (opening moderated)) (filing ++ closing ada ++ [.other (1, 10)]) := by
  refine reports_lawful Clock.env CredentialOps.asciiCasing moderated ?_ _ (by decide +kernel)
  intro r hr
  exact absurd hr (Table.not_mem_empty r)

/-- Ada is erased while the report is hers to decide; Eve then closes her own report. -/
theorem own_report_closed :
    let s := Interleaving.run (program Clock.env CredentialOps.asciiCasing)
      (initial (opening moderated)) (filing ++ [.other (1, 8)] ++ closing eve)
    s.store.filer 5 = some 2 ∧ s.store.resolutions = [⟨5, 2, .dismissed⟩] := by
  decide +kernel

end ReportLife
