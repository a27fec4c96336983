import BikesNest.Schema

/-! Reading a listing back: three statements fetch the row, its hours and its security entries,
and `to_domain` turns them into the aggregate the services work with. -/

namespace Details

open Parking Schema Outcome

inductive ReaderError where
  | unavailable
  | unexpected (message : String)
  deriving DecidableEq

def ReaderError.toContribution : ReaderError → ContributionError
  | .unavailable => .unavailable
  | .unexpected _ => .internal

/-- The review aggregate. The average is in hundredths, and dropped when nothing was rated. -/
structure Rating where
  avg : Option ℕ
  count : ℕ
  rated : count = 0 → avg = none
  deriving DecidableEq

def Rating.new (avg : Option ℕ) (count : ℕ) : Option Rating :=
  if ∀ h ∈ avg, h ≤ 500 then
    some ⟨if count = 0 then none else avg, count, fun h => if_pos h⟩
  else none

/-- A listing as the services see it: it has a name and an address. -/
structure ParkingLocation where
  id : LocationId
  name : String
  address : String
  description : Option String
  parkingType : ParkingType
  cost : Cost
  point : GeoPoint
  timezone : Tz
  hours : OpeningHours
  security : List SecurityFeature
  moderationState : ModerationState
  rating : Rating
  lastVerifiedAt : Option Instant
  version : ℕ
  named : name ≠ ""
  addressed : address ≠ ""
  deriving DecidableEq

/-- The stored price, when all three of its columns are there. -/
def priceOf (row : LocationRow) : Except ReaderError (Option Money) :=
  match row.priceCents, row.priceCurrency, row.priceUnit with
  | some cents, some currency, some unit => do
    let currency ← orFail (CurrencyCode.parse currency) (.unexpected
      ("invalid currency code: " ++ String.ofList ((trim currency).toList.map Char.toUpper)))
    pure (some ⟨cents, currency, unit⟩)
  | _, _, _ => pure none

def openingOf (env : Env) (row : LocationRow) (hours : List HoursRow) : OpeningHours :=
  if row.hoursUnknown then .unknown
  else .weekly (hours.map fun h =>
    (h.dayOfWeek, ⟨env.timeOfSql h.opensAt, env.timeOfSql h.closesAt, h.allDay⟩))

def featureOf (r : SecurityRow) : Except ReaderError SecurityFeature := do
  let state ← orFail (SecurityState.fromSmallint r.state)
    (.unexpected ("unknown security state: " ++ toString r.state))
  pure ⟨r.featureCode, state⟩

/-- `to_domain`. -/
def toDomain (env : Env) (row : LocationRow) (hours : List HoursRow)
    (security : List SecurityRow) : Except ReaderError ParkingLocation := do
  let timezone ← orFail (env.parseTz row.timezone) (.unexpected ("bad timezone " ++ row.timezone))
  let price ← priceOf row
  let cost ← orFail (Cost.fromKindAndPrice row.costKind.asCode price)
    (.unexpected ("unknown cost kind: " ++ row.costKind.asCode))
  let features ← security.mapM featureOf
  let point ← orFail (GeoPoint.new row.lat row.lon) (.unexpected "coordinates out of range")
  let rating ← orFail (Rating.new row.ratingAvg row.ratingCount)
    (.unexpected "rating avg out of range")
  if named : trim row.name = "" then throw (.unexpected "name is required")
  else if addressed : trim row.address = "" then throw (.unexpected "address is required")
  else pure ⟨row.id, trim row.name, trim row.address, row.description, row.parkingType, cost,
    point, timezone, openingOf env row hours, features, row.moderationState, rating,
    row.lastVerifiedAt, row.version, named, addressed⟩

/-- The columns that `to_domain` copies. -/
theorem toDomain_copies {env : Env} {row : LocationRow} {hours : List HoursRow}
    {security : List SecurityRow} {loc : ParkingLocation}
    (h : toDomain env row hours security = .ok loc) :
    loc.id = row.id ∧ loc.moderationState = row.moderationState ∧ loc.version = row.version := by
  simp only [toDomain, bind_ok] at h
  obtain ⟨_, -, _, -, _, -, _, -, _, -, _, -, h⟩ := h
  split at h
  · simp at h
  · split at h
    · simp at h
    · simp only [pure_ok] at h
      exact h ▸ ⟨rfl, rfl, rfl⟩

end Details
