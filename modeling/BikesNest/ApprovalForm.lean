import BikesNest.PublishedChanges

/-! The form a moderator approves a proposal with: four text fields that may replace what the
proposer asked for. The library's reader of floating-point numbers is a parameter. -/

namespace ApprovalForm

open Parking Proposal Schema Outcome Publishing Contribution Operations Publishability
  PublishedChanges

structure ApproveProposalForm where
  lat : String
  lon : String
  timezone : String
  existence : String
  deriving DecidableEq

/-- `parse_optional_f64`. -/
def parseOptionalF64 (parse : String → Option Double) (raw : String) (field : ProposalField) :
    Except ModerationError (Option Double) :=
  if trim raw = "" then pure none
  else do
    let x ← orFail (parse (trim raw)) (.invalidProposalField field)
    pure (some x)

def existsCode : String := "exists"
def removedCode : String := "removed"

/-- How the form reads its existence field: a code, or nothing. -/
def presence (raw : String) : Option Bool :=
  if trim raw = existsCode then some true
  else if trim raw = removedCode then some false
  else none

/-- `to_override`. -/
def ApproveProposalForm.toOverride (parse : String → Option Double) (form : ApproveProposalForm) :
    Except ModerationError ProposalOverride := do
  let lat ← parseOptionalF64 parse form.lat .lat
  let lon ← parseOptionalF64 parse form.lon .lon
  pure ⟨lat, lon, nonEmpty (trim form.timezone), presence form.existence⟩

/-- `moderation_proposal_approve` down to the repository; an error leaves the store as it was. -/
def approveProposal (env : Env) (parse : String → Option Double) (s : Store) (id : ProposalId)
    (moderator : UserId) (form : ApproveProposalForm) : Except ModerationError Store := do
  let adjusted ← form.toOverride parse
  let prop ← orFail (s.proposals.find id) .notFound
  let applied ← merge env prop.kind (ProposedChange.fromJson env prop.kind prop.proposed) adjusted
  approveInTransaction env s id moderator applied

/-! ### What the form says -/

/-- The number of a field, when it has one within a bound. -/
def coordinate (parse : String → Option Double) (bound : ℚ) (raw : String) : Option ℚ :=
  if trim raw = "" then none else (parse (trim raw)).bind (finiteWithin bound)

/-- The zone of a field, when it has one. -/
def zone (env : Env) (raw : String) : Option Tz :=
  if trim raw = "" then none else env.parseTz (trim raw)

section Says

variable (env : Env) (parse : String → Option Double)

/-- A field that the kind of the proposal asks for holds something that means nothing. -/
def Garbled (form : ApproveProposalForm) : ProposalKind → Prop
  | .editDetails => False
  | .moveLocation => (trim form.lat ≠ "" ∧ coordinate parse 90 form.lat = none) ∨
      (trim form.lon ≠ "" ∧ coordinate parse 180 form.lon = none) ∨
      (trim form.timezone ≠ "" ∧ zone env form.timezone = none)
  | .changeExistence => trim form.existence ≠ "" ∧ presence form.existence = none

/-- What a published row holds: for each field the form's value, or else the proposer's. A payload
that is not readable has no values. -/
def Published (form : ApproveProposalForm) (change : ProposedChange) (row : LocationRow) :
    ProposalKind → Prop
  | .editDetails => ∃ edit loc, change = .editDetails edit ∧
      changedRow loc (.editDetails edit) = some row
  | .moveLocation => ∃ tz, row.timezone = tz.name ∧
      match change with
      | .moveLocation lat lon timezone =>
        (coordinate parse 90 form.lat).or (some lat) = some row.lat ∧
          (coordinate parse 180 form.lon).or (some lon) = some row.lon ∧
          (zone env form.timezone).or (timezone.bind fun name => zone env name) = some tz
      | _ => coordinate parse 90 form.lat = some row.lat ∧
          coordinate parse 180 form.lon = some row.lon ∧ zone env form.timezone = some tz
  | .changeExistence => ∃ present, row.moderationState = (if present then .active else .removed) ∧
      match change with
      | .changeExistence proposed => (presence form.existence).or (some proposed) = some present
      | _ => presence form.existence = some present

/-- The form is applied exactly or refused. -/
def Exact (s : Store) (id : ProposalId) (moderator : UserId) (form : ApproveProposalForm) : Prop :=
  ∀ prop, s.proposals.find id = some prop →
    (Garbled env parse form prop.kind →
      ∃ e, approveProposal env parse s id moderator form = .error e) ∧
    ∀ t, approveProposal env parse s id moderator form = .ok t →
      ∃ row, t.locations.find prop.locationId = some row ∧
        Published env parse form (ProposedChange.fromJson env prop.kind prop.proposed) row prop.kind

/-- A field that is empty or a number, of any size. -/
def Numeric (raw : String) : Prop := trim raw = "" ∨ (parse (trim raw)).isSome

/-- The existence field of a proposal that can be approved holds no code, the proposer's value is
there to fall back on, and nothing else in the form is refused. -/
structure Slips (s : Store) (id : ProposalId) (moderator : UserId) (form : ApproveProposalForm)
    (prop : ProposalRow) (loc : LocationRow) : Prop where
  number : prop.id = id
  kind : prop.kind = .changeExistence
  readable : ∃ present, ProposedChange.fromJson env prop.kind prop.proposed =
    .changeExistence present
  garbled : trim form.existence ≠ "" ∧ presence form.existence = none
  lat : Numeric parse form.lat
  lon : Numeric parse form.lon
  actionable : Actionable s prop loc moderator

end Says

section Form

variable {env : Env} {parse : String → Option Double} {form : ApproveProposalForm}

/-- A numeric field is blank, or read whatever its size. -/
theorem parseOptionalF64_ok {raw : String} {field : ProposalField} {v : Option Double} :
    parseOptionalF64 parse raw field = .ok v ↔
      (trim raw = "" ∧ v = none) ∨ (trim raw ≠ "" ∧ ∃ x, parse (trim raw) = some x ∧ v = some x) := by
  unfold parseOptionalF64
  by_cases blank : trim raw = ""
  · rw [if_pos blank, pure_ok]
    simp [blank, eq_comm]
  · rw [if_neg blank]
    simp only [bind_ok, orFail_ok, pure_ok]
    simp [blank, eq_comm]

theorem toOverride_ok {adjusted : ProposalOverride} :
    form.toOverride parse = .ok adjusted ↔
      parseOptionalF64 parse form.lat .lat = .ok adjusted.lat ∧
      parseOptionalF64 parse form.lon .lon = .ok adjusted.lon ∧
      adjusted.timezone = nonEmpty (trim form.timezone) ∧
      adjusted.present = presence form.existence := by
  obtain ⟨lat, lon, timezone, present⟩ := adjusted
  simp only [ApproveProposalForm.toOverride, bind_ok, pure_ok, ProposalOverride.mk.injEq]
  constructor
  · rintro ⟨_, hlat, _, hlon, rfl, rfl, rfl, rfl⟩
    exact ⟨hlat, hlon, rfl, rfl⟩
  · rintro ⟨hlat, hlon, rfl, rfl⟩
    exact ⟨lat, hlat, lon, hlon, rfl, rfl, rfl, rfl⟩

theorem numeric_iff {raw : String} (field : ProposalField) :
    (∃ v, parseOptionalF64 parse raw field = .ok v) ↔ Numeric parse raw := by
  simp only [parseOptionalF64_ok, Numeric]
  by_cases blank : trim raw = ""
  · simp [blank]
  · simp [blank, Option.isSome_iff_exists]

/-- A coordinate that was used is the one of the field, or the proposer's where that is blank. -/
theorem coordinate_used {raw : String} {field : ProposalField} {v : Option Double} {q : Option ℚ}
    {bound x : ℚ} (read : parseOptionalF64 parse raw field = .ok v)
    (used : v.or (q.map .finite) = some (.finite x)) (inside : -bound ≤ x ∧ x ≤ bound) :
    (coordinate parse bound raw).or q = some x ∧
      ¬ (trim raw ≠ "" ∧ coordinate parse bound raw = none) := by
  rcases parseOptionalF64_ok.mp read with ⟨blank, rfl⟩ | ⟨filled, d, parsed, rfl⟩
  · refine ⟨?_, fun garbled => garbled.1 blank⟩
    rw [coordinate, if_pos blank]
    simpa using used
  · simp only [Option.some_or, Option.some.injEq] at used
    subst used
    have value : coordinate parse bound raw = some x := by
      rw [coordinate, if_neg filled, parsed, Option.bind_some]
      exact finiteWithin_eq_some.mpr ⟨rfl, inside⟩
    rw [value]
    exact ⟨rfl, fun garbled => by cases garbled.2⟩

/-- A zone that was used is the one of the field, or the proposer's where that is blank. -/
theorem zone_used {raw name : String} {q : Option String} {tz : Tz}
    (used : ((nonEmpty (trim raw)).or q).bind (nonEmpty <| trim ·) = some name)
    (found : env.parseTz name = some tz) :
    (zone env raw).or (q.bind fun text => zone env text) = some tz ∧
      ¬ (trim raw ≠ "" ∧ zone env raw = none) := by
  have named : ∀ text, nonEmpty (trim text) = some name → zone env text = some tz := by
    intro text filled
    have same := nonEmpty_eq_some filled
    have some : trim text ≠ "" := by
      intro blank
      simp [nonEmpty, blank] at filled
    rw [zone, if_neg some, ← same, found]
  by_cases blank : trim raw = ""
  · refine ⟨?_, fun garbled => garbled.1 blank⟩
    rw [zone, if_pos blank, Option.none_or]
    rw [nonEmpty, if_pos blank, Option.none_or] at used
    obtain ⟨text, listed, filled⟩ := Option.bind_eq_some_iff.mp used
    rw [listed, Option.bind_some]
    exact named text filled
  · rw [PayloadCodec.nonEmpty_of_ne blank, Option.some_or, Option.bind_some, trim_trim] at used
    rw [named raw used]
    exact ⟨rfl, fun garbled => by cases garbled.2⟩

/-- What a merged approval form comes to. -/
inductive Merged (env : Env) (parse : String → Option Double) (form : ApproveProposalForm)
    (change : ProposedChange) : ProposalKind → ProposalApplication → Prop where
  | editDetails (edit : ParkingEdit) (payload : change = .editDetails edit) :
      Merged env parse form change .editDetails (.editDetails edit)
  | moveLocation (x y : ℚ) (tz : Tz) (clear : ¬ Garbled env parse form .moveLocation)
      (values : ∀ row : LocationRow, row.lat = x → row.lon = y → row.timezone = tz.name →
        Published env parse form change row .moveLocation) :
      Merged env parse form change .moveLocation (.moveLocation x y tz)
  | changeExistence (present : Bool)
      (value : (presence form.existence).or
        (match change with | .changeExistence proposed => some proposed | _ => none) =
          some present) :
      Merged env parse form change .changeExistence (.changeExistence present)

theorem merged_of_ok {adjusted : ProposalOverride} {kind : ProposalKind} {change : ProposedChange}
    {applied : ProposalApplication} (filled : form.toOverride parse = .ok adjusted)
    (merged : merge env kind change adjusted = .ok applied) :
    Merged env parse form change kind applied := by
  obtain ⟨lat, lon, timezone, present⟩ := toOverride_ok.mp filled
  cases kind with
  | editDetails =>
    cases change with
    | editDetails edit =>
      simp only [merge, Except.ok.injEq] at merged
      subst merged
      exact .editDetails edit rfl
    | _ => simp [merge] at merged
  | moveLocation =>
    cases change with
    | moveLocation x₀ y₀ named =>
      obtain ⟨x, y, name, tz, useLat, useLon, ⟨low, high, west, east⟩, useZone, found, rfl⟩ :=
        moveLocation_ok.mp merged
      rw [timezone] at useZone
      obtain ⟨atLat, clearLat⟩ := coordinate_used (q := some x₀) lat useLat ⟨low, high⟩
      obtain ⟨atLon, clearLon⟩ := coordinate_used (q := some y₀) lon useLon ⟨west, east⟩
      obtain ⟨inZone, clearZone⟩ := zone_used useZone found
      refine .moveLocation x y tz ?_ ?_
      · rintro (garbled | garbled | garbled)
        · exact clearLat garbled
        · exact clearLon garbled
        · exact clearZone garbled
      · rintro row rfl rfl placed
        exact ⟨tz, placed, atLat, atLon, inZone⟩
    | _ =>
      obtain ⟨x, y, name, tz, useLat, useLon, ⟨low, high, west, east⟩, useZone, found, rfl⟩ :=
        moveLocation_ok.mp merged
      rw [timezone, ← Option.or_none (o := nonEmpty _)] at useZone
      rw [← Option.or_none (o := adjusted.lat)] at useLat
      rw [← Option.or_none (o := adjusted.lon)] at useLon
      obtain ⟨atLat, clearLat⟩ := coordinate_used (q := none) lat useLat ⟨low, high⟩
      obtain ⟨atLon, clearLon⟩ := coordinate_used (q := none) lon useLon ⟨west, east⟩
      obtain ⟨inZone, clearZone⟩ := zone_used (q := none) useZone found
      rw [Option.or_none] at atLat atLon
      rw [Option.bind_none, Option.or_none] at inZone
      refine .moveLocation x y tz ?_ ?_
      · rintro (garbled | garbled | garbled)
        · exact clearLat garbled
        · exact clearLon garbled
        · exact clearZone garbled
      · rintro row rfl rfl placed
        exact ⟨tz, placed, atLat, atLon, inZone⟩
  | changeExistence =>
    cases change with
    | changeExistence proposed =>
      simp only [merge, Except.ok.injEq] at merged
      subst merged
      refine .changeExistence _ ?_
      rw [← present]
      cases adjusted.present <;> rfl
    | _ =>
      simp only [merge, bind_ok, orFail_ok, pure_ok] at merged
      obtain ⟨value, stated, rfl⟩ := merged
      refine .changeExistence _ ?_
      rw [← present, stated]
      rfl

/-- An application that was published is in the row. -/
theorem published_row {s t : Store} {id : ProposalId} {moderator : UserId}
    {applied : ProposalApplication} (done : approveInTransaction env s id moderator applied = .ok t) :
    ∃ prop loc row, Actionable s prop loc moderator ∧ prop.id = id ∧
      changedRow loc applied = some row ∧ t.locations.find prop.locationId = some row := by
  obtain ⟨prop, loc, row, parts, h⟩ := approve_ok.mp done
  obtain rfl : prop.id = id := (Table.find_eq_some.mp h.found).2
  exact ⟨prop, loc, row, ⟨h.found, h.located, h.pending, h.current, h.byOther, h.moderatorExists⟩,
    rfl, h.changed, find_published h⟩

theorem approveProposal_ok {s t : Store} {id : ProposalId} {moderator : UserId} :
    approveProposal env parse s id moderator form = .ok t ↔
      ∃ adjusted prop applied, form.toOverride parse = .ok adjusted ∧
        s.proposals.find id = some prop ∧
        merge env prop.kind (ProposedChange.fromJson env prop.kind prop.proposed) adjusted =
          .ok applied ∧ approveInTransaction env s id moderator applied = .ok t := by
  simp only [approveProposal, bind_ok, orFail_ok]
  constructor
  · rintro ⟨adjusted, filled, prop, found, applied, merged, done⟩
    exact ⟨adjusted, prop, applied, filled, found, merged, done⟩
  · rintro ⟨adjusted, prop, applied, filled, found, merged, done⟩
    exact ⟨adjusted, filled, prop, found, applied, merged, done⟩

/-- A change of existence writes a row that is as admissible as the one it replaces. -/
theorem existence_written {s : Store} {loc : LocationRow} (present : Bool)
    (admissible : Admissible loc) :
    ∃ row t, applyChange env s loc (.changeExistence present) = .ok (row, t) := by
  refine applyChange_succeeds.mpr ⟨⟨_, rfl, ?_⟩, ?_⟩
  · exact checkLocation_ok.mpr (checkLocation_ok.mp admissible.checked)
  · intro edit other
    cases other

/-- A form that slips is approved. -/
theorem slips_approved (lawful : env.Lawful) {ops : List Op} {id : ProposalId}
    {moderator : UserId} {prop : ProposalRow} {loc : LocationRow}
    (slips : Slips env parse (run env empty ops) id moderator form prop loc) :
    ∃ t, approveProposal env parse (run env empty ops) id moderator form = .ok t := by
  obtain ⟨rfl, kind, ⟨proposed, readable⟩, ⟨-, nothing⟩, lat, lon, act⟩ := slips
  obtain ⟨x, readLat⟩ := (numeric_iff .lat).mpr lat
  obtain ⟨y, readLon⟩ := (numeric_iff .lon).mpr lon
  have filled : form.toOverride parse = .ok ⟨x, y, nonEmpty (trim form.timezone), none⟩ :=
    toOverride_ok.mpr ⟨readLat, readLon, rfl, nothing.symm⟩
  have merged : merge env prop.kind (ProposedChange.fromJson env prop.kind prop.proposed)
      ⟨x, y, nonEmpty (trim form.timezone), none⟩ = .ok (.changeExistence proposed) := by
    rw [readable, kind]
    rfl
  have sound := Publishability.reachable_sound env ops
  have written : ∃ row t,
      applyChange env (run env empty ops) loc (.changeExistence proposed) = .ok (row, t) :=
    existence_written proposed (sound.location _ _ act.located)
  have sameKind : prop.kind = (ProposalApplication.changeExistence proposed).kind := kind
  obtain ⟨t, done⟩ := approve_of_written lawful sound act.found act.located act.pending act.current
    sameKind act.byOther act.user (next_revision_free act.located) written
  exact ⟨t, approveProposal_ok.mpr ⟨_, prop, _, filled, act.found, merged, done⟩⟩

/-- What was published is what the form and the proposer say, and then the form had no garbled
field but one existence field that reads as none. -/
theorem exact_of_ok {s t : Store} {id : ProposalId} {moderator : UserId} {prop : ProposalRow}
    (found : s.proposals.find id = some prop)
    (done : approveProposal env parse s id moderator form = .ok t) :
    (∃ row, t.locations.find prop.locationId = some row ∧
      Published env parse form (ProposedChange.fromJson env prop.kind prop.proposed) row prop.kind) ∧
    (Garbled env parse form prop.kind → ∃ loc, Slips env parse s id moderator form prop loc) := by
  obtain ⟨adjusted, prop', applied, filled, found', merged, approved⟩ := approveProposal_ok.mp done
  obtain rfl : prop = prop' := Option.some.inj (found.symm.trans found')
  obtain ⟨prop', loc, row, act, number, changed, there⟩ := published_row approved
  obtain rfl : prop = prop' := by
    have same := act.found
    rw [number, found] at same
    exact Option.some.inj same
  obtain ⟨lat, lon, -, -⟩ := toOverride_ok.mp filled
  have values := merged_of_ok filled merged
  generalize hc : ProposedChange.fromJson env prop.kind prop.proposed = change at values ⊢
  generalize hk : prop.kind = kind at values ⊢
  cases values with
  | editDetails edit payload => exact ⟨⟨row, there, edit, loc, payload, changed⟩, False.elim⟩
  | moveLocation x y tz clear values =>
    simp only [changedRow, Option.some.injEq] at changed
    refine ⟨⟨row, there, values row ?_ ?_ ?_⟩, fun garbled => absurd garbled clear⟩
    all_goals rw [← changed]
  | changeExistence present value =>
    simp only [changedRow, Option.some.injEq] at changed
    have state : row.moderationState = if present then .active else .removed := by rw [← changed]
    constructor
    · refine ⟨row, there, present, state, ?_⟩
      cases change with
      | changeExistence proposed => exact value
      | _ => rwa [Option.or_none] at value
    · intro garbled
      rw [garbled.2, Option.none_or] at value
      refine ⟨loc, number, hk, ?_, garbled, (numeric_iff .lat).mp ⟨_, lat⟩,
        (numeric_iff .lon).mp ⟨_, lon⟩, act⟩
      rw [hc]
      cases change with
      | changeExistence proposed => exact ⟨proposed, rfl⟩
      | _ => cases value

end Form

/-- In every reachable state an approval form is applied exactly or refused, unless an existence
field that holds no code is read as blank. -/
theorem adjustments_applied_iff (env : Env) (lawful : env.Lawful) (parse : String → Option Double)
    (ops : List Op) (id : ProposalId) (moderator : UserId) (form : ApproveProposalForm) :
    Exact env parse (run env empty ops) id moderator form ↔
      ¬ ∃ prop loc, Slips env parse (run env empty ops) id moderator form prop loc := by
  constructor
  · rintro exactly ⟨prop, loc, slips⟩
    obtain ⟨t, done⟩ := slips_approved lawful slips
    have found := slips.actionable.found
    rw [slips.number] at found
    have garbled : Garbled env parse form prop.kind := by
      rw [slips.kind]
      exact slips.garbled
    obtain ⟨e, refused⟩ := (exactly prop found).1 garbled
    rw [done] at refused
    cases refused
  · intro clean prop found
    constructor
    · intro garbled
      cases answer : approveProposal env parse (run env empty ops) id moderator form with
      | error e => exact ⟨e, rfl⟩
      | ok t => exact absurd ⟨prop, (exact_of_ok found answer).2 garbled⟩ clean
    · exact fun t done => (exact_of_ok found done).1

/-- The rack of user 1, which user 1 says is gone, and a moderator. -/
def goneStart : List Op :=
  enlist 1 ++ [.create 1 sampleRack 1,
    .createProposal 1 ⟨1, 1, 1, .changeExistence, (ProposalPayload.mk (.changeExistence false)
      none).toJson Clock.env⟩] ++ enlist 2

def goneProposal : ProposalRow := newProposalRow 1
  ⟨1, 1, 1, .changeExistence, (ProposalPayload.mk (.changeExistence false) none).toJson Clock.env⟩
  true

def goneRow : LocationRow := newRow 1 sampleRack ⟨"Europe/Berlin"⟩ 1

def noNumbers : String → Option Double := fun _ => none

/-- A moderator who says that it exists is either followed or refused. -/
theorem adjustments_applied_iff_gone :
    Exact Clock.env noNumbers (run Clock.env empty goneStart) 1 2 ⟨"", "", "", "exists"⟩ := by
  refine (adjustments_applied_iff Clock.env Clock.env_lawful noNumbers goneStart 1 2 _).mpr ?_
  rintro ⟨prop, loc, slips⟩
  have read : presence "exists" = some true := by decide
  exact absurd (slips.garbled.2.symm.trans read) (by decide)

/-- A moderator who types that the rack exists, and leaves out a letter, removes it. -/
theorem typo_removes_rack : ∃ t,
    Garbled Clock.env noNumbers ⟨"", "", "", "exist"⟩ goneProposal.kind ∧
    (run Clock.env empty goneStart).proposals.find 1 = some goneProposal ∧
    approveProposal Clock.env noNumbers (run Clock.env empty goneStart) 1 2 ⟨"", "", "", "exist"⟩ =
      .ok t ∧
    (∃ row, t.locations.find 1 = some row ∧ row.moderationState = .removed) ∧
    ¬ Exact Clock.env noNumbers (run Clock.env empty goneStart) 1 2 ⟨"", "", "", "exist"⟩ := by
  have garbled : trim "exist" ≠ "" ∧ presence "exist" = none := by decide
  have pending : (run Clock.env empty goneStart).proposals.find 1 = some goneProposal := by
    decide +kernel
  have slips : Slips Clock.env noNumbers (run Clock.env empty goneStart) 1 2 ⟨"", "", "", "exist"⟩
      goneProposal goneRow :=
    ⟨rfl, rfl, ⟨false, by decide +kernel⟩, garbled, .inl (by decide), .inl (by decide),
      ⟨pending, by decide +kernel, rfl, rfl, by decide, by decide +kernel⟩⟩
  obtain ⟨t, approved⟩ := slips_approved Clock.env_lawful slips
  obtain ⟨⟨row, there, present, state, used⟩, -⟩ := exact_of_ok pending approved
  refine ⟨t, garbled, pending, approved, ⟨row, there, ?_⟩, ?_⟩
  · have readable : ProposedChange.fromJson Clock.env goneProposal.kind goneProposal.proposed =
        .changeExistence false := by decide +kernel
    rw [readable, garbled.2] at used
    cases used
    exact state
  · intro exactly
    obtain ⟨e, refused⟩ := (exactly goneProposal pending).1 garbled
    rw [approved] at refused
    cases refused

end ApprovalForm
