import BikesNest.Clock
import BikesNest.Proposal

/-! The payload of a proposal as a codec. What is decoded is within the limits of the decoder, a
change within them is decoded from what it is encoded to, and the encoder lists the whole
catalogue of security features. -/

namespace PayloadCodec

open Parking Proposal Outcome

/-- Every feature of the catalogue, in its order, with the state a list gives it. -/
def catalogued (security : List SecurityFeature) : List SecurityFeature :=
  securityFeatureCodes.map fun code => ⟨code, securityStateOf security code⟩

/-- The edit that a decoder makes of an encoded one. -/
def canonical (e : ParkingEdit) : ParkingEdit :=
  { e with name := trim e.name, address := trim e.address, security := catalogued e.security }

/-- The limits of `ParkingEdit::from_json`; the upper one of a price is that of its type. -/
structure Within (e : ParkingEdit) : Prop where
  named : trim e.name ≠ "" ∧ (trim e.name).toList.length ≤ 200
  addressed : trim e.address ≠ "" ∧ (trim e.address).toList.length ≤ 500
  described : ∀ d ∈ e.description, d.toList.length ≤ 5000
  priced : ∀ p, e.cost = .paid (some p) → 0 ≤ p.cents ∧ p.cents < 2 ^ 63
  dated : ∀ r ∈ e.hours.rows, 1 ≤ r.1 ∧ r.1 ≤ 7

/-! ### Codes -/

@[simp] theorem parkingType_fromCode (t : ParkingType) : ParkingType.fromCode t.asCode = some t := by
  cases t <;> rfl

@[simp] theorem pricingUnit_fromCode (u : PricingUnit) : PricingUnit.fromCode u.asCode = some u := by
  cases u <;> rfl

@[simp] theorem state_fromSmallint (s : SecurityState) :
    SecurityState.fromSmallint (stateSmallint s) = some s := by
  cases s <;> rfl

theorem asI64_stateSmallint (s : SecurityState) :
    (Json.num (.int (stateSmallint s))).asI64 = some (stateSmallint s) := by
  cases s <;> rfl

/-- The text of a currency is its own code. -/
@[simp] theorem currency_parse (c : CurrencyCode) : CurrencyCode.parse c.text = some c := by
  obtain ⟨text, length, upper⟩ := c
  rw [List.all_eq_true] at upper
  have trimmed : trim text = text := by
    apply trim_eq_self
    intro d hd
    have bounds : 65 ≤ d.toNat ∧ d.toNat ≤ 90 := by
      simpa [Char.isUpper, UInt32.le_iff_toNat_le, ← Char.toNat_val] using upper d hd
    simp [isWhitespace]
    omega
  have same : text.toList.map Char.toUpper = text.toList := by
    conv_rhs => rw [← List.map_id text.toList]
    refine List.map_congr_left fun d hd => ?_
    exact Char.toUpper_eq_of_not_isLower (Char.not_isLower_of_isUpper (upper d hd))
  have alpha : ∀ d ∈ text.toList, d.isAlpha = true := by
    intro d hd
    simp [Char.isAlpha, upper d hd]
  simpa [CurrencyCode.parse, trimmed, same, length] using alpha

/-! ### The parts of an edit -/

theorem descriptionFromJson_optStr {d d' : Option String} :
    descriptionFromJson (optStr d) = some d' ↔ d = d' ∧ ∀ s ∈ d, s.toList.length ≤ 5000 := by
  cases d with
  | none => simp [optStr, descriptionFromJson]
  | some s => simp [optStr, descriptionFromJson, and_comm]

theorem kind_costJson (cost : Cost) :
    (costJson cost).get "kind" = some (.str cost.kind.asCode) := by
  cases cost with
  | paid price => cases price <;> simp [costJson, Json.get, Cost.kind, CostKind.asCode]
  | _ => simp [costJson, Json.get]

/-- The price that a decoder finds in the encoding of a cost. -/
def priceIn : Cost → Option Money
  | .paid price => price
  | _ => none

theorem priceFromJson_costJson {cost : Cost} {price : Option Money} :
    priceFromJson (costJson cost) = some price ↔
      priceIn cost = price ∧ ∀ p ∈ priceIn cost, 0 ≤ p.cents ∧ p.cents < 2 ^ 63 := by
  cases cost with
  | paid listed =>
    cases listed with
    | none => simp [costJson, priceFromJson, Json.get, priceIn]
    | some p =>
      constructor
      · intro h
        obtain ⟨cents, read, -, low, rfl⟩ : ∃ cents, (Json.num (.int p.cents)).asI64 = some cents ∧
            ∃ _ : Unit, 0 ≤ cents ∧ some ⟨cents, p.currency, p.unit⟩ = price := by
          simpa [costJson, priceFromJson, Json.get, Json.asStr, guard,
            Option.bind_eq_some_iff] using h
        simp only [Json.asI64, Option.ite_none_right_eq_some, Option.some.injEq] at read
        obtain ⟨bounds, rfl⟩ := read
        simpa [priceIn] using ⟨low, bounds.2⟩
      · rintro ⟨rfl, inside⟩
        obtain ⟨low, high⟩ := inside p rfl
        have read : (Json.num (.int p.cents)).asI64 = some p.cents := if_pos ⟨by omega, high⟩
        simp [costJson, priceFromJson, Json.get, Json.asStr, priceIn, guard, read, low]
  | _ => simp [costJson, priceFromJson, Json.get, priceIn]

theorem fromKindAndPrice_priceIn (cost : Cost) :
    Cost.fromKindAndPrice cost.kind.asCode (priceIn cost) = some cost := by
  cases cost <;> simp [Cost.fromKindAndPrice, Cost.kind, CostKind.asCode, priceIn]

theorem asU64_natCast (n : ℕ) {day : ℕ} :
    (Json.num (.int n)).asU64 = some day ↔ n = day ∧ n < 2 ^ 64 := by
  simp only [Json.asU64, Int.toNat_natCast, Option.ite_none_right_eq_some, Option.some.injEq]
  omega

theorem hoursRowFromJson_arr {env : Env} (day : Json) (opens closes : String) (allDay : Bool)
    {r : ℕ × TimeRange} :
    hoursRowFromJson env (.arr [day, .str opens, .str closes, .bool allDay]) = some r ↔
      ∃ n, day.asU64 = some n ∧ (1 ≤ n ∧ n ≤ 7) ∧ ∃ t, env.parseTime opens = some t ∧
        ∃ u, env.parseTime closes = some u ∧ (n, ⟨t, u, allDay⟩) = r := by
  simp [hoursRowFromJson, Json.item, Json.asStr, Json.asBool, Option.bind_eq_some_iff, guard]

section Hours

variable {env : Env} (lawful : env.Lawful)
include lawful

theorem hoursRowFromJson_timeRangeJson (row : ℕ × TimeRange) {r : ℕ × TimeRange} :
    hoursRowFromJson env (timeRangeJson env row) = some r ↔ row = r ∧ 1 ≤ row.1 ∧ row.1 ≤ 7 := by
  rw [timeRangeJson, hoursRowFromJson_arr]
  simp only [asU64_natCast, lawful.parse_render, Option.some.injEq]
  constructor
  · rintro ⟨_, ⟨rfl, -⟩, days, _, rfl, _, rfl, rfl⟩
    exact ⟨rfl, days⟩
  · rintro ⟨rfl, days⟩
    exact ⟨row.1, ⟨rfl, lt_of_le_of_lt days.2 (by norm_num)⟩, days, _, rfl, _, rfl, rfl⟩

theorem mapM_timeRangeJson {rows rows' : List (ℕ × TimeRange)} :
    (rows.map (timeRangeJson env)).mapM (hoursRowFromJson env) = some rows' ↔
      rows = rows' ∧ ∀ r ∈ rows, 1 ≤ r.1 ∧ r.1 ≤ 7 := by
  rw [mapM_eq_some, List.forall₂_map_left_iff]
  simp only [hoursRowFromJson_timeRangeJson lawful]
  induction rows generalizing rows' with
  | nil => cases rows' <;> simp
  | cons row rows ih =>
    cases rows' with
    | nil => simp
    | cons row' rows' =>
      rw [List.forall₂_cons, ih, List.cons.injEq, List.forall_mem_cons]
      tauto

theorem hoursFromJson_hoursJson {hours hours' : OpeningHours} :
    hoursFromJson env (hoursJson env hours.isUnknown hours.rows) = some hours' ↔
      hours = hours' ∧ ∀ r ∈ hours.rows, 1 ≤ r.1 ∧ r.1 ≤ 7 := by
  have unknown : (hoursJson env hours.isUnknown hours.rows).get "unknown" =
      some (.bool hours.isUnknown) := by simp [hoursJson, Json.get]
  have rows : (hoursJson env hours.isUnknown hours.rows).get "rows" =
      some (.arr (hours.rows.map (timeRangeJson env))) := by simp [hoursJson, Json.get]
  simp only [hoursFromJson, unknown, rows, Json.asBool, Json.asArray, Option.bind_eq_bind,
    Option.bind_some, Option.bind_eq_some_iff, mapM_timeRangeJson lawful, Option.some.injEq]
  cases hours with
  | unknown => simp [OpeningHours.isUnknown, OpeningHours.rows, guard]
  | weekly listed =>
    constructor
    · rintro ⟨_, ⟨rfl, dated⟩, -, -, rfl⟩
      exact ⟨rfl, dated⟩
    · rintro ⟨rfl, dated⟩
      exact ⟨listed, ⟨rfl, dated⟩, (), rfl, rfl⟩

end Hours

theorem securityFromJson_map (state : String → SecurityState) {codes : List String}
    (known : ∀ c ∈ codes, isKnownSecurityCode c = true) (distinct : codes.Nodup)
    {seen : List SecurityFeature} (apart : ∀ f ∈ seen, f.code ∉ codes) :
    securityFromJson seen (codes.map fun c => securityJson c (state c)) =
      some (seen ++ codes.map fun c => ⟨c, state c⟩) := by
  induction codes generalizing seen with
  | nil => simp [securityFromJson]
  | cons code codes ih =>
    obtain ⟨fresh, distinct⟩ := List.nodup_cons.mp distinct
    have admitted : isKnownSecurityCode code = true ∧ ∀ f ∈ seen, f.code ≠ code :=
      ⟨known code List.mem_cons_self, fun f hf same => apart f hf (same ▸ List.mem_cons_self)⟩
    have next : ∀ f ∈ seen ++ [⟨code, state code⟩], f.code ∉ codes := by
      intro f hf
      rcases List.mem_append.mp hf with hf | hf
      · exact fun there => apart f hf (List.mem_cons_of_mem _ there)
      · obtain rfl := List.mem_singleton.mp hf
        exact fresh
    have rest := ih (fun c hc => known c (List.mem_cons_of_mem _ hc)) distinct next
    simp only [List.map_cons, securityFromJson, securityJson, Json.item, Json.asStr,
      List.getElem?_cons_zero, List.getElem?_cons_succ, asI64_stateSmallint, state_fromSmallint,
      Option.bind_eq_bind, Option.bind_some, guard, if_pos admitted]
    rw [Option.pure_def, Option.bind_some]
    simpa [securityJson] using rest

theorem securityFromJson_catalogued (security : List SecurityFeature) :
    securityFromJson [] (securityFeatureCodes.map fun code =>
      securityJson code (securityStateOf security code)) = some (catalogued security) := by
  apply securityFromJson_map
  · decide
  · decide
  · simp

/-! ### Edits -/

/-- What the encoder puts under each key. -/
theorem get_toJson (env : Env) (e : ParkingEdit) :
    (toJson env e).get "name" = some (.str (trim e.name)) ∧
      (toJson env e).get "address" = some (.str (trim e.address)) ∧
      (toJson env e).get "description" = some (optStr e.description) ∧
      (toJson env e).get "cost" = some (costJson e.cost) ∧
      (toJson env e).get "hours" = some (hoursJson env e.hours.isUnknown e.hours.rows) ∧
      (toJson env e).get "security" = some (.arr (securityFeatureCodes.map fun code =>
        securityJson code (securityStateOf e.security code))) ∧
      (toJson env e).get "type" = some (.str e.parkingType.asCode) := by
  simp [toJson, Json.get]

theorem asI64_lt {j : Json} {z : ℤ} (h : j.asI64 = some z) : z < 2 ^ 63 := by
  cases j with
  | num n =>
    cases n with
    | int i =>
      simp only [Json.asI64, Option.ite_none_right_eq_some, Option.some.injEq] at h
      exact h.2 ▸ h.1.2
    | float q => cases h
  | _ => cases h

theorem priceFromJson_lt {c : Json} {p : Money} (h : priceFromJson c = some (some p)) :
    p.cents < 2 ^ 63 := by
  unfold priceFromJson at h
  split at h
  · cases h
  · cases h
  · simp only [Option.bind_eq_bind, Option.bind_eq_some_iff, Option.some.injEq] at h
    obtain ⟨cents, read, _, -, _, -, _, -, _, -, _, -, _, -, _, -, rfl⟩ := h
    exact asI64_lt read

theorem descriptionFromJson_length {d : Json} {text : String}
    (h : descriptionFromJson d = some (some text)) : text.toList.length ≤ 5000 := by
  cases d with
  | str s =>
    simp only [descriptionFromJson, Option.ite_none_right_eq_some, Option.some.injEq] at h
    exact h.2 ▸ h.1
  | _ => cases h

theorem fromJson_lengths {env : Env} {raw : Json} {e : ParkingEdit}
    (h : Proposal.fromJson env raw = some e) :
    e.name ≠ "" ∧ e.name.toList.length ≤ 200 ∧ e.address ≠ "" ∧ e.address.toList.length ≤ 500 := by
  unfold Proposal.fromJson at h
  dsimp only at h
  obtain ⟨name, -, h⟩ := bind_asStr h
  obtain ⟨address, -, h⟩ := bind_asStr h
  obtain ⟨_, lengths, h⟩ := Option.bind_eq_some_iff.mp h
  simp only [Option.bind_eq_bind, Option.bind_eq_some_iff, Option.some.injEq] at h
  obtain ⟨_, -, _, -, _, -, _, -, _, -, _, -, _, -, _, -, _, -, _, -, _, -, _, -, _, -, _, -,
    _, -, rfl⟩ := h
  simpa [guard] using lengths

/-- What is decoded is within the limits, and its name and address are trimmed. -/
theorem within_of_fromJson {env : Env} {raw : Json} {e : ParkingEdit}
    (h : Proposal.fromJson env raw = some e) :
    Within e ∧ trim e.name = e.name ∧ trim e.address = e.address := by
  have decoded := fromJson_decoded h
  obtain ⟨named, short, addressed, shortAddress⟩ := fromJson_lengths h
  obtain ⟨_, -, ofName⟩ := decoded.name
  obtain ⟨_, -, ofAddress⟩ := decoded.address
  have name : trim e.name = e.name := by rw [ofName, trim_trim]
  have address : trim e.address = e.address := by rw [ofAddress, trim_trim]
  refine ⟨⟨?_, ?_, ?_, ?_, ?_⟩, name, address⟩
  · rw [name]
    exact ⟨named, short⟩
  · rw [address]
    exact ⟨addressed, shortAddress⟩
  · intro text there
    obtain ⟨d, -, read⟩ := decoded.description
    exact descriptionFromJson_length (read.trans (congrArg some there))
  · intro p paid
    obtain ⟨c, price, kind, -, read, -, made⟩ := decoded.cost
    obtain ⟨-, cases⟩ := fromKindAndPrice_eq made
    rw [paid] at cases
    obtain rfl : some p = price := by simpa using cases
    exact ⟨priceFromJson_nonneg read, priceFromJson_lt read⟩
  · obtain ⟨_, -, read⟩ := decoded.hours
    exact hoursFromJson_days read

theorem fromJson_toJson {env : Env} (lawful : env.Lawful) {e : ParkingEdit} (within : Within e) :
    Proposal.fromJson env (toJson env e) = some (canonical e) := by
  obtain ⟨name, address, description, cost, hours, security, type⟩ := get_toJson env e
  have described := descriptionFromJson_optStr.mpr ⟨rfl, within.described⟩
  have priced : priceFromJson (costJson e.cost) = some (priceIn e.cost) := by
    refine priceFromJson_costJson.mpr ⟨rfl, fun p hp => within.priced p ?_⟩
    cases hc : e.cost <;> simp_all [priceIn]
  have dated := (hoursFromJson_hoursJson lawful).mpr ⟨rfl, within.dated⟩
  have bounds : trim e.name ≠ "" ∧ (trim e.name).toList.length ≤ 200 ∧ trim e.address ≠ "" ∧
      (trim e.address).toList.length ≤ 500 :=
    ⟨within.named.1, within.named.2, within.addressed.1, within.addressed.2⟩
  simp only [Proposal.fromJson, name, address, description, cost, hours, security, type, described,
    priced, dated, kind_costJson, fromKindAndPrice_priceIn, securityFromJson_catalogued,
    parkingType_fromCode, Json.asStr, Json.asArray, Option.bind_eq_bind, Option.bind_some, guard,
    trim_trim]
  rw [if_pos bounds]
  rfl

/-- An edit is read from what it is encoded to exactly when it is within the limits. -/
theorem encodable_iff {env : Env} (lawful : env.Lawful) {e : ParkingEdit} :
    (Proposal.fromJson env (toJson env e)).isSome ↔ Within e := by
  constructor
  · intro read
    obtain ⟨e', h⟩ := Option.isSome_iff_exists.mp read
    obtain ⟨name, address, description, cost, hours, -, -⟩ := get_toJson env e
    have decoded := fromJson_decoded h
    obtain ⟨within, trimmed, trimmedAddress⟩ := within_of_fromJson h
    obtain ⟨s, hs, ofName⟩ := decoded.name
    obtain ⟨a, ha, ofAddress⟩ := decoded.address
    obtain ⟨d, hd, described⟩ := decoded.description
    obtain ⟨c, price, _, hc, priced, -, -⟩ := decoded.cost
    obtain ⟨j, hj, dated⟩ := decoded.hours
    rw [name] at hs
    rw [address] at ha
    rw [description] at hd
    rw [cost] at hc
    rw [hours] at hj
    cases hs
    cases ha
    cases hd
    cases hc
    cases hj
    rw [trim_trim] at ofName ofAddress
    refine ⟨?_, ?_, (descriptionFromJson_optStr.mp described).2, ?_,
      ((hoursFromJson_hoursJson lawful).mp dated).2⟩
    · rw [← ofName, ← trimmed]
      exact within.named
    · rw [← ofAddress, ← trimmedAddress]
      exact within.addressed
    · intro p paid
      exact (priceFromJson_costJson.mp priced).2 p (by rw [paid]; rfl)
  · intro within
    rw [fromJson_toJson lawful within]
    rfl

/-! ### Payloads -/

/-- `ProposedChange::kind`. -/
def ProposedChange.kind : ProposedChange → Option ProposalKind
  | .editDetails _ => some .editDetails
  | .moveLocation _ _ _ => some .moveLocation
  | .changeExistence _ => some .changeExistence
  | .unknown => none

/-- What the encoder may be given: a move to a place there is, in a zone that is named or absent;
either existence; an edit within the limits. -/
def Encodable : ProposedChange → Prop
  | .editDetails e => Within e
  | .moveLocation lat lon timezone => inRange lat lon ∧ ∀ tz ∈ timezone, trim tz = tz ∧ tz ≠ ""
  | .changeExistence _ => True
  | .unknown => False

/-- A change with its name and address trimmed and its security features listed in full. -/
def canonicalChange : ProposedChange → ProposedChange
  | .editDetails e => .editDetails (canonical e)
  | change => change

/-- A change with its security features listed in full. -/
def relisted : ProposedChange → ProposedChange
  | .editDetails e => .editDetails { e with security := catalogued e.security }
  | change => change

theorem get_cons (i k : String) (w : Json) (fields : List (String × Json)) :
    (Json.obj ((i, w) :: fields)).get k = if i = k then some w else (Json.obj fields).get k := by
  by_cases first : i = k <;> simp [Json.get, first]

theorem get_insertField (k k' : String) (v : Json) (fields : List (String × Json)) :
    (Json.obj (Json.insertField k v fields)).get k' =
      if k' = k then some v else (Json.obj fields).get k' := by
  induction fields with
  | nil =>
    rw [Json.insertField, get_cons]
    simp only [eq_comm]
  | cons field fields ih =>
    obtain ⟨i, w⟩ := field
    rw [Json.insertField]
    by_cases here : i = k
    · subst here
      rw [if_pos rfl, get_cons, get_cons]
      by_cases asked : k' = i
      · simp [asked]
      · simp [asked, Ne.symm asked]
    · rw [if_neg here]
      by_cases before : i < k
      · rw [if_pos before, get_cons, get_cons, ih]
        by_cases asked : k' = k
        · subst asked
          simp [here]
        · simp [asked]
      · rw [if_neg before, get_cons]
        simp only [eq_comm]

/-- The note does not touch what the change is read from. -/
theorem fromJson_congr (env : Env) (kind : ProposalKind) {raw raw' : Json}
    (same : ∀ k, k ≠ "reason" → raw.get k = raw'.get k) :
    ProposedChange.fromJson env kind raw = ProposedChange.fromJson env kind raw' := by
  cases kind with
  | editDetails =>
    simp only [ProposedChange.fromJson, Proposal.fromJson, same "name" (by decide),
      same "address" (by decide), same "description" (by decide), same "cost" (by decide),
      same "hours" (by decide), same "security" (by decide), same "type" (by decide)]
  | moveLocation =>
    simp only [ProposedChange.fromJson, same "lat" (by decide), same "lon" (by decide),
      same "timezone" (by decide)]
  | changeExistence =>
    simp only [ProposedChange.fromJson, same "existence" (by decide), same "exists" (by decide)]

/-- An encoded change is an object without a note. -/
theorem toJson_fields (env : Env) (change : ProposedChange) :
    ∃ fields, change.toJson env = .obj fields ∧ (Json.obj fields).get "reason" = none := by
  cases change with
  | moveLocation lat lon timezone =>
    refine ⟨_, rfl, ?_⟩
    cases timezone <;> simp [Json.get]
  | _ => exact ⟨_, rfl, by simp [Json.get]⟩

theorem fromJson_withReason (env : Env) (kind : ProposalKind) (p : ProposalPayload) :
    ProposalPayload.fromJson env kind (p.toJson env) =
      ⟨ProposedChange.fromJson env kind (p.change.toJson env),
        p.reason.bind (nonEmpty <| trim ·)⟩ := by
  obtain ⟨change, reason⟩ := p
  obtain ⟨fields, object, silent⟩ := toJson_fields env change
  cases reason with
  | none => simp [ProposalPayload.fromJson, ProposalPayload.toJson, ProposalPayload.new, object, silent]
  | some reason =>
    have same : ∀ k, k ≠ "reason" →
        (Json.obj (Json.insertField "reason" (.str reason) fields)).get k =
          (Json.obj fields).get k := by
      intro k other
      rw [get_insertField, if_neg other]
    simp [ProposalPayload.fromJson, ProposalPayload.toJson, ProposalPayload.new, object,
      Json.withField, get_insertField, Json.asStr, fromJson_congr env kind same]

theorem nonEmpty_of_ne {s : String} (h : s ≠ "") : nonEmpty s = some s := if_neg h

theorem change_fromJson_toJson {env : Env} (lawful : env.Lawful) {change : ProposedChange}
    {kind : ProposalKind} (ofKind : ProposedChange.kind change = some kind)
    (encodable : Encodable change) :
    ProposedChange.fromJson env kind (change.toJson env) = canonicalChange change := by
  cases change with
  | editDetails e =>
    cases ofKind
    simp only [ProposedChange.fromJson, ProposedChange.toJson, fromJson_toJson lawful encodable]
    rfl
  | moveLocation lat lon timezone =>
    cases ofKind
    obtain ⟨range, zoned⟩ := encodable
    cases timezone with
    | none =>
      simp [ProposedChange.fromJson, ProposedChange.toJson, Json.get, Json.asF64, range,
        canonicalChange]
    | some tz =>
      obtain ⟨trimmed, named⟩ := zoned tz rfl
      simp [ProposedChange.fromJson, ProposedChange.toJson, Json.get, Json.asF64, Json.asStr, range,
        canonicalChange, trimmed, nonEmpty_of_ne named]
  | changeExistence present =>
    cases ofKind
    cases present <;>
      simp [ProposedChange.fromJson, ProposedChange.toJson, Json.get, Json.asStr, canonicalChange]
  | unknown => cases encodable

/-- What is decoded may be encoded again, and its name and address are trimmed. -/
theorem encodable_of_fromJson {env : Env} {kind : ProposalKind} {raw : Json}
    {change : ProposedChange} (h : ProposedChange.fromJson env kind raw = change)
    (read : change ≠ .unknown) :
    ProposedChange.kind change = some kind ∧ Encodable change ∧
      canonicalChange change = relisted change := by
  subst h
  cases kind with
  | editDetails =>
    simp only [ProposedChange.fromJson] at *
    cases decoded : Proposal.fromJson env raw with
    | none => simp [decoded] at read
    | some e =>
      obtain ⟨within, name, address⟩ := within_of_fromJson decoded
      refine ⟨rfl, within, ?_⟩
      simp [canonicalChange, relisted, canonical, name, address]
  | moveLocation =>
    simp only [ProposedChange.fromJson] at *
    split
    · split
      · rename_i range
        refine ⟨rfl, ⟨range, ?_⟩, rfl⟩
        intro tz zoned
        obtain ⟨text, -, trimmed⟩ := Option.bind_eq_some_iff.mp zoned
        obtain rfl := nonEmpty_eq_some trimmed
        refine ⟨trim_trim text, ?_⟩
        rintro blank
        simp [blank, nonEmpty] at trimmed
      · simp_all
    · simp_all
  | changeExistence =>
    simp only [ProposedChange.fromJson] at *
    split
    · split_ifs
      · exact ⟨rfl, trivial, rfl⟩
      · exact ⟨rfl, trivial, rfl⟩
      · simp_all
    · split
      · exact ⟨rfl, trivial, rfl⟩
      · simp_all

theorem securityFromJson_known {rows : List Json} {seen security : List SecurityFeature}
    (h : securityFromJson seen rows = some security)
    (known : ∀ f ∈ seen, isKnownSecurityCode f.code = true) :
    ∀ f ∈ security, isKnownSecurityCode f.code = true := by
  induction rows generalizing seen with
  | nil =>
    cases h
    exact known
  | cons row rows ih =>
    simp only [securityFromJson, Option.bind_eq_bind, Option.bind_eq_some_iff] at h
    obtain ⟨_, -, code, -, _, admitted, _, -, _, -, state, -, rest⟩ := h
    have new : isKnownSecurityCode code = true := by
      by_contra unknown
      simp [guard, unknown] at admitted
    refine ih rest fun f hf => ?_
    rcases List.mem_append.mp hf with hf | hf
    · exact known f hf
    · obtain rfl := List.mem_singleton.mp hf
      exact new

theorem find_listed {codes : List String} {code : String} (state : String → SecurityState)
    (listed : code ∈ codes) :
    (codes.map fun c => SecurityFeature.mk c (state c)).find? (fun f => decide (f.code = code)) =
      some ⟨code, state code⟩ := by
  induction codes with
  | nil => cases listed
  | cons c codes ih =>
    by_cases here : c = code
    · subst here
      simp
    · rcases List.mem_cons.mp listed with rfl | later
      · exact absurd rfl here
      · rw [List.map_cons, List.find?_cons_of_neg (by simpa using here)]
        exact ih later

/-- Listing the whole catalogue changes the state of no feature. -/
theorem securityStateOf_catalogued {security : List SecurityFeature}
    (known : ∀ f ∈ security, isKnownSecurityCode f.code = true) (code : String) :
    securityStateOf (catalogued security) code = securityStateOf security code := by
  by_cases listed : code ∈ securityFeatureCodes
  · rw [securityStateOf, catalogued, find_listed (securityStateOf security) listed]
    rfl
  · have unstated : security.find? (fun f => decide (f.code = code)) = none := by
      rw [List.find?_eq_none]
      intro f hf same
      have := known f hf
      rw [of_decide_eq_true same] at this
      exact listed (by simpa [isKnownSecurityCode] using this)
    have absent : (catalogued security).find? (fun f => decide (f.code = code)) = none := by
      rw [List.find?_eq_none]
      intro f hf same
      obtain ⟨c, hc, rfl⟩ := List.mem_map.mp hf
      exact listed (of_decide_eq_true same ▸ hc)
    rw [securityStateOf, securityStateOf, absent, unstated]

theorem reason_trimmed {reason : Option String} {text : String}
    (h : reason.bind (nonEmpty <| trim ·) = some text) : nonEmpty (trim text) = some text := by
  obtain ⟨s, -, trimmed⟩ := Option.bind_eq_some_iff.mp h
  obtain rfl := nonEmpty_eq_some trimmed
  rwa [trim_trim]

/-- A payload is decoded from what it is encoded to, up to trimming and the full list of security
features; a payload that was decoded is kept as it is, up to that list, in which no feature
changes its state. -/
theorem payload_codec_stable (env : Env) (lawful : env.Lawful) :
    (∀ (p : ProposalPayload) (kind : ProposalKind), ProposedChange.kind p.change = some kind →
      Encodable p.change → ProposalPayload.fromJson env kind (p.toJson env) =
        ⟨canonicalChange p.change, p.reason.bind (nonEmpty <| trim ·)⟩) ∧
    ∀ (kind : ProposalKind) (raw : Json) (p : ProposalPayload),
      ProposalPayload.fromJson env kind raw = p → p.change ≠ .unknown →
        ProposalPayload.fromJson env kind (p.toJson env) = ⟨relisted p.change, p.reason⟩ ∧
        ∀ e, p.change = .editDetails e → ∀ code,
          securityStateOf (catalogued e.security) code = securityStateOf e.security code := by
  have encoded : ∀ (p : ProposalPayload) (kind : ProposalKind),
      ProposedChange.kind p.change = some kind → Encodable p.change →
        ProposalPayload.fromJson env kind (p.toJson env) =
          ⟨canonicalChange p.change, p.reason.bind (nonEmpty <| trim ·)⟩ := by
    intro p kind ofKind encodable
    rw [fromJson_withReason, change_fromJson_toJson lawful ofKind encodable]
  refine ⟨encoded, ?_⟩
  rintro kind raw p rfl read
  obtain ⟨ofKind, encodable, trimmed⟩ := encodable_of_fromJson rfl read
  constructor
  · rw [encoded _ kind ofKind encodable]
    refine (ProposalPayload.mk.injEq _ _ _ _).mpr ⟨trimmed, ?_⟩
    cases noted : (ProposalPayload.fromJson env kind raw).reason with
    | none => rfl
    | some text => exact reason_trimmed noted
  · intro e edited code
    obtain ⟨-, decoded⟩ := fromJson_editDetails.mp edited
    obtain ⟨rows, -, listed⟩ := (fromJson_decoded decoded).security
    exact securityStateOf_catalogued (securityFromJson_known listed (by simp)) code

/-- A payload that leaves features out, with a number and a note that are not written as the
encoder would. -/
def shortList : Json :=
  .obj [("address", .str " Street 1"), ("cost", .obj [("cents", .num (.int 250)),
      ("currency", .str "brl"), ("kind", .str "paid"), ("unit", .str "hour")]),
    ("description", .null), ("hours", .obj [("rows", .arr [.arr [.num (.int 1), .str "09:00:00",
      .str "17:00:00", .bool false]]), ("unknown", .bool false)]),
    ("name", .str "Rack"), ("reason", .str " new price "),
    ("security", .arr [.arr [.str "cctv", .num (.int 1)]]), ("type", .str "rack")]

theorem payload_codec_stable_shortList :
    (ProposalPayload.fromJson Clock.env .editDetails shortList).change ≠ .unknown ∧
    ProposalPayload.fromJson Clock.env .editDetails
        ((ProposalPayload.fromJson Clock.env .editDetails shortList).toJson Clock.env) =
      ⟨relisted (ProposalPayload.fromJson Clock.env .editDetails shortList).change,
        some "new price"⟩ := by
  have read : (ProposalPayload.fromJson Clock.env .editDetails shortList).change ≠ .unknown := by
    decide +kernel
  obtain ⟨kept, -⟩ := (payload_codec_stable Clock.env Clock.env_lawful).2 .editDetails shortList _
    rfl read
  have noted : (ProposalPayload.fromJson Clock.env .editDetails shortList).reason =
      some "new price" := by decide +kernel
  rw [noted] at kept
  exact ⟨read, kept⟩

/-- What is decoded lists the features that the payload lists, and its encoding all of them; and a
note of white space, which no decoder makes, is lost. -/
theorem shortList_not_kept :
    (¬ ∀ (kind : ProposalKind) (raw : Json),
      (ProposalPayload.fromJson Clock.env kind raw).change ≠ .unknown →
        ProposalPayload.fromJson Clock.env kind
            ((ProposalPayload.fromJson Clock.env kind raw).toJson Clock.env) =
          ProposalPayload.fromJson Clock.env kind raw) ∧
    ProposalPayload.fromJson Clock.env .changeExistence
        (ProposalPayload.toJson Clock.env ⟨.changeExistence true, some " "⟩) =
      ⟨.changeExistence true, none⟩ := by
  constructor
  · intro same
    have kept := same .editDetails shortList (by decide +kernel)
    revert kept
    decide +kernel
  · decide +kernel

end PayloadCodec
