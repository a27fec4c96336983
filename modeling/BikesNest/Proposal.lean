import BikesNest.Parking
import BikesNest.Outcome

/-! Proposals: the stored payload and its codec, the change it describes, and the rule that
merges the change with a moderator's overrides into the values an approval writes. -/

namespace Proposal

open Parking Outcome

abbrev ProposalId := ℕ

def optStr : Option String → Json
  | none => .null
  | some s => .str s

def costJson : Cost → Json
  | .paid (some p) => .obj [("cents", .num (.int p.cents)), ("currency", .str p.currency.text),
      ("kind", .str "paid"), ("unit", .str p.unit.asCode)]
  | cost => .obj [("kind", .str cost.kind.asCode)]

def timeRangeJson (env : Env) (row : ℕ × TimeRange) : Json :=
  .arr [.num (.int row.1), .str (env.timeToString row.2.opensAt),
    .str (env.timeToString row.2.closesAt), .bool row.2.allDay]

def hoursJson (env : Env) (isUnknown : Bool) (rows : List (ℕ × TimeRange)) : Json :=
  .obj [("rows", .arr (rows.map (timeRangeJson env))), ("unknown", .bool isUnknown)]

def securityJson (code : String) (state : SecurityState) : Json :=
  .arr [.str code, .num (.int (stateSmallint state))]

/-- `ParkingEdit::to_json`. -/
def toJson (env : Env) (e : ParkingEdit) : Json :=
  .obj [("address", .str (trim e.address)), ("cost", costJson e.cost),
    ("description", optStr e.description),
    ("hours", hoursJson env e.hours.isUnknown e.hours.rows),
    ("name", .str (trim e.name)),
    ("security", .arr (securityFeatureCodes.map fun code =>
      securityJson code (securityStateOf e.security code))),
    ("type", .str e.parkingType.asCode)]

def priceFromJson (c : Json) : Option (Option Money) :=
  match c.get "cents" with
  | none | some .null => some none
  | some v => do
    let cents ← v.asI64
    guard (0 ≤ cents)
    let currency ← CurrencyCode.parse (← (← c.get "currency").asStr)
    let unit ← PricingUnit.fromCode (← (← c.get "unit").asStr)
    some (some ⟨cents, currency, unit⟩)

def hoursRowFromJson (env : Env) (row : Json) : Option (ℕ × TimeRange) := do
  let day ← (← row.item 0).asU64
  guard (1 ≤ day ∧ day ≤ 7)
  let opensAt ← env.parseTime (← (← row.item 1).asStr)
  let closesAt ← env.parseTime (← (← row.item 2).asStr)
  let allDay ← (← row.item 3).asBool
  some (day, ⟨opensAt, closesAt, allDay⟩)

/-- The loop adjusted the security rows: an unknown or repeated code refuses the payload. -/
def securityFromJson (seen : List SecurityFeature) : List Json → Option (List SecurityFeature)
  | [] => some seen
  | row :: rest => do
    let code ← (← row.item 0).asStr
    guard (isKnownSecurityCode code = true ∧ ∀ f ∈ seen, f.code ≠ code)
    let state ← SecurityState.fromSmallint (← (← row.item 1).asI64)
    securityFromJson (seen ++ [⟨code, state⟩]) rest

def descriptionFromJson : Json → Option (Option String)
  | .null => some none
  | .str s => if s.toList.length ≤ 5000 then some (some s) else none
  | _ => none

def hoursFromJson (env : Env) (h : Json) : Option OpeningHours := do
  let isUnknown ← (← h.get "unknown").asBool
  let rows ← (← (← h.get "rows").asArray).mapM (hoursRowFromJson env)
  guard (isUnknown = true → rows = [])
  some (if isUnknown then .unknown else .weekly rows)

/-- `ParkingEdit::from_json`. -/
def fromJson (env : Env) (raw : Json) : Option ParkingEdit := do
  let name := trim (← (← raw.get "name").asStr)
  let address := trim (← (← raw.get "address").asStr)
  guard (name ≠ "" ∧ name.toList.length ≤ 200 ∧ address ≠ "" ∧ address.toList.length ≤ 500)
  let description ← descriptionFromJson (← raw.get "description")
  let c ← raw.get "cost"
  let price ← priceFromJson c
  let cost ← Cost.fromKindAndPrice (← (← c.get "kind").asStr) price
  let hours ← hoursFromJson env (← raw.get "hours")
  let security ← securityFromJson [] (← (← raw.get "security").asArray)
  let parkingType ← ParkingType.fromCode (← (← raw.get "type").asStr)
  some ⟨name, address, description, parkingType, cost, hours, security⟩

/-- What a decoded edit came from, field by field. -/
structure Decoded (env : Env) (raw : Json) (e : ParkingEdit) : Prop where
  name : ∃ s, raw.get "name" = some (.str s) ∧ e.name = trim s
  address : ∃ s, raw.get "address" = some (.str s) ∧ e.address = trim s
  description : ∃ d, raw.get "description" = some d ∧ descriptionFromJson d = some e.description
  cost : ∃ c price kind, raw.get "cost" = some c ∧ priceFromJson c = some price ∧
    c.get "kind" = some (.str kind) ∧ Cost.fromKindAndPrice kind price = some e.cost
  hours : ∃ h, raw.get "hours" = some h ∧ hoursFromJson env h = some e.hours
  security : ∃ rows, raw.get "security" = some (.arr rows) ∧
    securityFromJson [] rows = some e.security
  parkingType : ∃ s, raw.get "type" = some (.str s) ∧ ParkingType.fromCode s = some e.parkingType

theorem bind_asStr {α : Type} {o : Option Json} {f : String → Option α} {a : α}
    (h : (o >>= fun j => j.asStr >>= f) = some a) : ∃ s, o = some (.str s) ∧ f s = some a := by
  obtain ⟨j, hj, h⟩ := Option.bind_eq_some_iff.mp h
  obtain ⟨s, hs, h⟩ := Option.bind_eq_some_iff.mp h
  rw [Json.asStr_eq_some.mp hs] at hj
  exact ⟨s, hj, h⟩

theorem fromJson_decoded {env : Env} {raw : Json} {e : ParkingEdit}
    (h : fromJson env raw = some e) : Decoded env raw e := by
  unfold fromJson at h
  dsimp only at h
  obtain ⟨name, hname, h⟩ := bind_asStr h
  obtain ⟨address, haddress, h⟩ := bind_asStr h
  obtain ⟨-, -, h⟩ := Option.bind_eq_some_iff.mp h
  obtain ⟨d, hd, h⟩ := Option.bind_eq_some_iff.mp h
  obtain ⟨description, hdescription, h⟩ := Option.bind_eq_some_iff.mp h
  obtain ⟨c, hc, h⟩ := Option.bind_eq_some_iff.mp h
  obtain ⟨price, hprice, h⟩ := Option.bind_eq_some_iff.mp h
  obtain ⟨kind, hkind, h⟩ := bind_asStr h
  obtain ⟨cost, hcost, h⟩ := Option.bind_eq_some_iff.mp h
  obtain ⟨hj, hh, h⟩ := Option.bind_eq_some_iff.mp h
  obtain ⟨hours, hhours, h⟩ := Option.bind_eq_some_iff.mp h
  obtain ⟨_, hs, h⟩ := Option.bind_eq_some_iff.mp h
  obtain ⟨rows, hrows, h⟩ := Option.bind_eq_some_iff.mp h
  rw [Json.asArray_eq_some.mp hrows] at hs
  obtain ⟨security, hsecurity, h⟩ := Option.bind_eq_some_iff.mp h
  obtain ⟨code, ht, h⟩ := bind_asStr h
  obtain ⟨parkingType, htype, h⟩ := Option.bind_eq_some_iff.mp h
  obtain rfl := Option.some.inj h
  exact ⟨⟨name, hname, rfl⟩, ⟨address, haddress, rfl⟩, ⟨d, hd, hdescription⟩,
    ⟨c, price, kind, hc, hprice, hkind, hcost⟩, ⟨hj, hh, hhours⟩, ⟨rows, hs, hsecurity⟩,
    ⟨code, ht, htype⟩⟩

theorem descriptionFromJson_eq {d : Json} {description : Option String}
    (h : descriptionFromJson d = some description) : d = optStr description := by
  cases d with
  | null =>
    cases h
    rfl
  | str s =>
    simp only [descriptionFromJson, Option.ite_none_right_eq_some, Option.some.injEq] at h
    rw [← h.2]
    rfl
  | _ => cases h

theorem priceFromJson_nonneg {c : Json} {p : Money} (h : priceFromJson c = some (some p)) :
    0 ≤ p.cents := by
  unfold priceFromJson at h
  split at h
  · cases h
  · cases h
  · simp only [Option.bind_eq_bind, Option.bind_eq_some_iff, Option.some.injEq] at h
    obtain ⟨cents, -, ⟨⟩, hguard, _, -, _, -, _, -, _, -, _, -, _, -, rfl⟩ := h
    simpa [guard] using hguard

theorem fromKindAndPrice_eq {kind : String} {price : Option Money} {cost : Cost}
    (h : Cost.fromKindAndPrice kind price = some cost) :
    kind = cost.kind.asCode ∧ (cost = .free ∨ cost = .paid price ∨ cost = .unknown) := by
  unfold Cost.fromKindAndPrice at h
  split at h
  · cases h
    exact ⟨‹_›, .inl rfl⟩
  · split at h
    · cases h
      exact ⟨‹_›, .inr (.inl rfl)⟩
    · split at h
      · cases h
        exact ⟨‹_›, .inr (.inr rfl)⟩
      · cases h

theorem hoursRowFromJson_day {env : Env} {row : Json} {r : ℕ × TimeRange}
    (h : hoursRowFromJson env row = some r) : 1 ≤ r.1 ∧ r.1 ≤ 7 := by
  simp only [hoursRowFromJson, Option.bind_eq_bind, Option.bind_eq_some_iff,
    Option.some.injEq] at h
  obtain ⟨_, -, day, -, ⟨⟩, hguard, _, -, _, -, _, -, _, -, _, -, _, -, _, -, _, -, rfl⟩ := h
  simpa [guard] using hguard

theorem hoursFromJson_days {env : Env} {h : Json} {hours : OpeningHours}
    (hh : hoursFromJson env h = some hours) : ∀ r ∈ hours.rows, 1 ≤ r.1 ∧ r.1 ≤ 7 := by
  simp only [hoursFromJson, Option.bind_eq_bind, Option.bind_eq_some_iff, Option.some.injEq] at hh
  obtain ⟨_, -, isUnknown, -, _, -, items, -, rows, hrows, _, -, rfl⟩ := hh
  intro r hr
  cases isUnknown with
  | true => cases hr
  | false =>
    obtain ⟨i, hi, rfl⟩ := List.getElem_of_mem hr
    have hall := List.forall₂_iff_get.mp (mapM_eq_some.mp hrows)
    exact hoursRowFromJson_day (hall.2 i (hall.1 ▸ hi) hi)

inductive ProposalKind where
  | editDetails | moveLocation | changeExistence
  deriving DecidableEq

inductive ProposalStatus where
  | pending | approved | rejected | superseded
  deriving DecidableEq

inductive ProposalVote where
  | approve | reject
  deriving DecidableEq

/-- What the proposer wants changed; `unknown` is a payload the decoder cannot read. -/
inductive ProposedChange where
  | editDetails (edit : ParkingEdit)
  | moveLocation (lat lon : ℚ) (timezone : Option String)
  | changeExistence (present : Bool)
  | unknown
  deriving DecidableEq

def nonEmpty (s : String) : Option String := if s = "" then none else some s

/-- `ProposedChange::from_json`: the kind comes from the row, never from the payload. -/
def ProposedChange.fromJson (env : Env) (kind : ProposalKind) (raw : Json) : ProposedChange :=
  match kind with
  | .editDetails => ((Proposal.fromJson env raw).map .editDetails).getD .unknown
  | .moveLocation =>
    match (raw.get "lat").bind Json.asF64, (raw.get "lon").bind Json.asF64 with
    | some lat, some lon =>
      if inRange lat lon then
        .moveLocation lat lon (((raw.get "timezone").bind Json.asStr).bind (nonEmpty <| trim ·))
      else .unknown
    | _, _ => .unknown
  | .changeExistence =>
    match (raw.get "existence").bind Json.asStr with
    | some code =>
      if code = "exists" then .changeExistence true
      else if code = "removed" then .changeExistence false
      else .unknown
    | none =>
      match (raw.get "exists").bind Json.asBool with
      | some present => .changeExistence present
      | none => .unknown

def ProposedChange.toJson (env : Env) : ProposedChange → Json
  | .editDetails edit => Proposal.toJson env edit
  | .moveLocation lat lon timezone =>
    .obj ([("lat", .num (.float lat)), ("lon", .num (.float lon))] ++
      (timezone.map fun tz => ("timezone", Json.str tz)).toList)
  | .changeExistence present =>
    .obj [("existence", .str (if present then "exists" else "removed"))]
  | .unknown => .obj []

/-- The change together with the proposer's note, which shares its JSON object. -/
structure ProposalPayload where
  change : ProposedChange
  reason : Option String
  deriving DecidableEq

def ProposalPayload.new (change : ProposedChange) (reason : Option String) : ProposalPayload :=
  ⟨change, reason.bind (nonEmpty <| trim ·)⟩

def ProposalPayload.fromJson (env : Env) (kind : ProposalKind) (raw : Json) : ProposalPayload :=
  .new (ProposedChange.fromJson env kind raw) ((raw.get "reason").bind Json.asStr)

def ProposalPayload.toJson (env : Env) (p : ProposalPayload) : Json :=
  match p.reason with
  | some reason => Json.withField "reason" (.str reason) (p.change.toJson env)
  | none => p.change.toJson env

/-- A field a form supplied as a double: not a number and the infinities are one case,
since the only test made of them is finiteness. -/
inductive Double where
  | finite (q : ℚ)
  | nonFinite
  deriving DecidableEq

structure ProposalOverride where
  lat : Option Double := none
  lon : Option Double := none
  timezone : Option String := none
  present : Option Bool := none
  deriving DecidableEq

inductive ProposalField where
  | lat | lon | timezone | existence
  deriving DecidableEq

inductive ModerationError where
  | notAuthorized
  | notFound
  | invalidState
  | staleProposal
  | invalidField (hint : String)
  | invalidProposalField (field : ProposalField)
  | conflict
  | internal
  deriving DecidableEq

/-- The values an approval writes. -/
inductive ProposalApplication where
  | editDetails (edit : ParkingEdit)
  | moveLocation (lat lon : ℚ) (timezone : Tz)
  | changeExistence (present : Bool)
  deriving DecidableEq

def ProposalApplication.kind : ProposalApplication → ProposalKind
  | .editDetails _ => .editDetails
  | .moveLocation _ _ _ => .moveLocation
  | .changeExistence _ => .changeExistence

def finiteWithin (bound : ℚ) (x : Double) : Option ℚ :=
  match x with
  | .finite q => if -bound ≤ q ∧ q ≤ bound then some q else none
  | .nonFinite => none

/-- `ProposalApplication::move_location`: both presence checks come before the ranges. -/
def moveLocation (env : Env) (lat lon : Option Double) (timezone : Option String) :
    Except ModerationError ProposalApplication := do
  let lat ← orFail lat (.invalidProposalField .lat)
  let lon ← orFail lon (.invalidProposalField .lon)
  let lat ← orFail (finiteWithin 90 lat) (.invalidProposalField .lat)
  let lon ← orFail (finiteWithin 180 lon) (.invalidProposalField .lon)
  let timezone ← orFail (timezone.bind (nonEmpty <| trim ·)) (.invalidProposalField .timezone)
  let timezone ← orFail (env.parseTz timezone) (.invalidProposalField .timezone)
  pure (.moveLocation lat lon timezone)

/-- `ProposalApplication::merge`: a field the moderator filled in wins. -/
def merge (env : Env) (kind : ProposalKind) (change : ProposedChange) (adjusted : ProposalOverride) :
    Except ModerationError ProposalApplication :=
  match kind, change with
  | .editDetails, .editDetails edit => .ok (.editDetails edit)
  | .editDetails, _ => .error .invalidState
  | .moveLocation, .moveLocation lat lon timezone =>
    moveLocation env (adjusted.lat.or (some (.finite lat))) (adjusted.lon.or (some (.finite lon)))
      (adjusted.timezone.or timezone)
  | .changeExistence, .changeExistence present =>
    .ok (.changeExistence (adjusted.present.getD present))
  | .moveLocation, _ => moveLocation env adjusted.lat adjusted.lon adjusted.timezone
  | .changeExistence, _ => do
    let present ← orFail adjusted.present (.invalidProposalField .existence)
    pure (.changeExistence present)

theorem finiteWithin_eq_some {bound q : ℚ} {d : Double} :
    finiteWithin bound d = some q ↔ d = .finite q ∧ -bound ≤ q ∧ q ≤ bound := by
  cases d with
  | nonFinite => simp [finiteWithin]
  | finite r =>
    simp only [finiteWithin, Option.ite_none_right_eq_some, Option.some.injEq,
      Double.finite.injEq]
    constructor
    · rintro ⟨hr, rfl⟩
      exact ⟨rfl, hr⟩
    · rintro ⟨rfl, hr⟩
      exact ⟨hr, rfl⟩

theorem moveLocation_ok {env : Env} {lat lon : Option Double} {timezone : Option String}
    {applied : ProposalApplication} :
    moveLocation env lat lon timezone = .ok applied ↔
      ∃ x y name tz, lat = some (.finite x) ∧ lon = some (.finite y) ∧ inRange x y ∧
        timezone.bind (nonEmpty <| trim ·) = some name ∧ env.parseTz name = some tz ∧
        applied = .moveLocation x y tz := by
  simp only [moveLocation, bind_ok, orFail_ok, pure_ok, finiteWithin_eq_some]
  constructor
  · rintro ⟨_, ha, _, hb, x, ⟨rfl, hx⟩, y, ⟨rfl, hy⟩, name, hname, tz, htz, rfl⟩
    exact ⟨x, y, name, tz, ha, hb, ⟨hx.1, hx.2, hy.1, hy.2⟩, hname, htz, rfl⟩
  · rintro ⟨x, y, name, tz, ha, hb, ⟨h₁, h₂, h₃, h₄⟩, hname, htz, rfl⟩
    exact ⟨_, ha, _, hb, x, ⟨rfl, h₁, h₂⟩, y, ⟨rfl, h₃, h₄⟩, name, hname, tz, htz, rfl⟩

/-- A merged application is of the row's kind. -/
theorem merge_kind {env : Env} {kind : ProposalKind} {change : ProposedChange}
    {adjusted : ProposalOverride} {applied : ProposalApplication}
    (h : merge env kind change adjusted = .ok applied) : applied.kind = kind := by
  cases kind with
  | editDetails =>
    cases change <;> simp [merge] at h
    rw [← h]
    rfl
  | moveLocation =>
    have hm : ∃ x y z, moveLocation env x y z = .ok applied := by
      cases change <;> exact ⟨_, _, _, h⟩
    obtain ⟨x, y, z, hm⟩ := hm
    obtain ⟨_, _, _, _, -, -, -, -, -, rfl⟩ := moveLocation_ok.mp hm
    rfl
  | changeExistence =>
    cases change with
    | changeExistence present =>
      simp only [merge, Except.ok.injEq] at h
      rw [← h]
      rfl
    | _ =>
      simp only [merge, bind_ok, orFail_ok, pure_ok] at h
      obtain ⟨_, _, rfl⟩ := h
      rfl

/-- A decoded change is of the row's kind. -/
theorem fromJson_editDetails {env : Env} {kind : ProposalKind} {raw : Json} {edit : ParkingEdit} :
    ProposedChange.fromJson env kind raw = .editDetails edit ↔
      kind = .editDetails ∧ fromJson env raw = some edit := by
  cases kind with
  | editDetails =>
    simp only [ProposedChange.fromJson, true_and]
    cases fromJson env raw <;> simp
  | moveLocation =>
    simp only [ProposedChange.fromJson]
    split
    · split <;> simp
    · simp
  | changeExistence =>
    simp only [ProposedChange.fromJson]
    split
    · split
      · simp
      · split <;> simp
    · split <;> simp

/-- An unchanged merge writes exactly what the payload says. -/
inductive MergedPayload (env : Env) (raw : Json) : ProposalKind → ProposalApplication → Prop where
  | editDetails (edit : ParkingEdit) (h : Proposal.fromJson env raw = some edit) :
      MergedPayload env raw .editDetails (.editDetails edit)
  | moveLocation (x y : ℚ) (text name : String) (tz : Tz)
      (lat : (raw.get "lat").bind Json.asF64 = some x)
      (lon : (raw.get "lon").bind Json.asF64 = some y)
      (range : inRange x y) (zone : raw.get "timezone" = some (.str text))
      (trimmed : name = trim text) (known : env.parseTz name = some tz) :
      MergedPayload env raw .moveLocation (.moveLocation x y tz)
  | changeExistence (present : Bool)
      (h : ProposedChange.fromJson env .changeExistence raw = .changeExistence present) :
      MergedPayload env raw .changeExistence (.changeExistence present)

theorem nonEmpty_eq_some {s t : String} (h : nonEmpty s = some t) : t = s := by
  simp only [nonEmpty, Option.ite_none_left_eq_some, Option.some.injEq] at h
  exact h.2.symm

theorem merge_unchanged {env : Env} {kind : ProposalKind} {raw : Json}
    {applied : ProposalApplication}
    (h : merge env kind (ProposedChange.fromJson env kind raw) {} = .ok applied) :
    MergedPayload env raw kind applied := by
  cases kind with
  | editDetails =>
    cases hd : Proposal.fromJson env raw with
    | none => simp [ProposedChange.fromJson, hd, merge] at h
    | some edit =>
      simp only [ProposedChange.fromJson, hd, Option.map_some, Option.getD_some, merge,
        Except.ok.injEq] at h
      rw [← h]
      exact .editDetails edit hd
  | moveLocation =>
    cases hc : ProposedChange.fromJson env .moveLocation raw with
    | moveLocation lat lon timezone =>
      rw [hc] at h
      obtain ⟨x, y, name, tz, hx, hy, hrange, hname, htz, rfl⟩ := moveLocation_ok.mp h
      simp only [Option.none_or, Option.some.injEq, Double.finite.injEq] at hx hy hname
      simp only [ProposedChange.fromJson] at hc
      split at hc
      · rename_i la lo hla hlo
        split at hc
        · simp only [ProposedChange.moveLocation.injEq] at hc
          obtain ⟨rfl, rfl, rfl⟩ := hc
          subst hx hy
          obtain ⟨t₁, ht₁, hn₁⟩ := Option.bind_eq_some_iff.mp hname
          obtain ⟨t₂, ht₂, hn₂⟩ := Option.bind_eq_some_iff.mp ht₁
          obtain ⟨j, hj, hs⟩ := Option.bind_eq_some_iff.mp ht₂
          rw [Json.asStr_eq_some] at hs
          have e₁ := nonEmpty_eq_some hn₁
          have e₂ := nonEmpty_eq_some hn₂
          rw [e₂, trim_trim] at e₁
          exact .moveLocation _ _ t₂ name tz hla hlo hrange (hs ▸ hj) e₁ htz
        · cases hc
      · cases hc
    | _ =>
      rw [hc] at h
      obtain ⟨_, _, _, _, hx, -⟩ := moveLocation_ok.mp h
      cases hx
  | changeExistence =>
    cases hc : ProposedChange.fromJson env .changeExistence raw with
    | changeExistence present =>
      simp only [hc, merge, Option.getD_none, Except.ok.injEq] at h
      rw [← h]
      exact .changeExistence present hc
    | _ =>
      simp only [hc, merge, bind_ok, orFail_ok, pure_ok] at h
      obtain ⟨_, hp, -⟩ := h
      cases hp

def communityApprovalsToPublish : ℕ := 6

def shouldPublish (approvals : ℕ) : Bool := decide (communityApprovalsToPublish ≤ approvals)

end Proposal
