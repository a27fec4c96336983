import BikesNest.Json

/-! The parking domain: listing values, opening hours, prices, security features and the
moderation states of a location. Functions of the date-time and time-zone libraries, and
the driver's conversion of a wall-clock time to and from a `TIME` column, are the fields
of `Env`; the laws the proofs need of them are in `Env.Lawful`. -/

namespace Parking

abbrev LocationId := ℕ
abbrev UserId := ℕ
abbrev Instant := ℤ

def isWhitespace (c : Char) : Bool :=
  let n := c.toNat
  (9 ≤ n && n ≤ 13) || n == 0x20 || n == 0x85 || n == 0xA0 || n == 0x1680 ||
    (0x2000 ≤ n && n ≤ 0x200A) || n == 0x2028 || n == 0x2029 || n == 0x202F ||
    n == 0x205F || n == 0x3000

/-- `str::trim`: no white space (in the Unicode sense) is left at either end. -/
def trim (s : String) : String :=
  String.ofList ((s.toList.dropWhile isWhitespace).rdropWhile isWhitespace)

theorem trim_trim (s : String) : trim (trim s) = trim s := by
  have ends : ∀ l : List Char, ((l.dropWhile isWhitespace).rdropWhile isWhitespace).dropWhile
      isWhitespace = (l.dropWhile isWhitespace).rdropWhile isWhitespace := by
    intro l
    rw [List.dropWhile_eq_self_iff]
    intro hl
    have hne : l.dropWhile isWhitespace ≠ [] := by
      intro h
      simp [h] at hl
    have hsub := List.rdropWhile_prefix isWhitespace (l := l.dropWhile isWhitespace)
    have hhead := hsub.getElem (i := 0) hl
    have hfirst := List.head_dropWhile_not isWhitespace hne
    rw [List.head_eq_getElem] at hfirst
    simpa [hhead] using hfirst
  simp only [trim, String.toList_ofList, ends, List.rdropWhile_idempotent]

theorem trim_eq_self {s : String} (h : ∀ c ∈ s.toList, isWhitespace c = false) : trim s = s := by
  have front : s.toList.dropWhile isWhitespace = s.toList := by
    rw [List.dropWhile_eq_self_iff]
    intro nonempty
    simp [h _ (List.getElem_mem nonempty)]
  have back : s.toList.rdropWhile isWhitespace = s.toList := by
    rw [List.rdropWhile_eq_self_iff]
    intro nonempty
    simp [h _ (List.getLast_mem nonempty)]
  rw [trim, front, back, String.ofList_toList]

theorem mem_of_mem_trim {s : String} {c : Char} (h : c ∈ (trim s).toList) : c ∈ s.toList := by
  simp only [trim, String.toList_ofList] at h
  exact (List.dropWhile_sublist _).subset ((List.rdropWhile_prefix _ _).subset h)

/-- A wall-clock time: seconds since midnight and nanoseconds. A fraction of a whole
second or more marks a leap second, which exists only at the end of a minute. -/
structure NaiveTime where
  secs : ℕ
  frac : ℕ
  valid : secs < 86400 ∧ frac < 2000000000 ∧ (1000000000 ≤ frac → secs % 60 = 59)
  deriving DecidableEq

def NaiveTime.midnight : NaiveTime := ⟨0, 0, by decide⟩
def NaiveTime.lastSecond : NaiveTime := ⟨86399, 0, by decide⟩

structure Tz where
  name : String
  deriving DecidableEq

/-- Library code outside the repository. A `TIME` value is its number of microseconds;
`timeText` is the database's own text for it. -/
structure Env where
  parseTime : String → Option NaiveTime
  timeToString : NaiveTime → String
  timeToSql : NaiveTime → ℕ
  timeOfSql : ℕ → NaiveTime
  timeText : ℕ → String
  parseTz : String → Option Tz

/-- The documented behaviour the proofs rely on: a rendered time parses back to itself and
holds no zero character, the two bounds of an all-day row, being whole seconds, survive the
column, and a time zone is looked up under its own name. -/
structure Env.Lawful (env : Env) : Prop where
  parse_render : ∀ t, env.parseTime (env.timeToString t) = some t
  render_text : ∀ t, (env.timeToString t).toList.contains '\x00' = false
  parseTz_name : ∀ s tz, env.parseTz s = some tz → tz.name = s
  midnight_survives : env.timeOfSql (env.timeToSql .midnight) = .midnight
  lastSecond_survives : env.timeOfSql (env.timeToSql .lastSecond) = .lastSecond

theorem Env.Lawful.render_injective {env : Env} (h : env.Lawful) {t u : NaiveTime}
    (he : env.timeToString t = env.timeToString u) : t = u := by
  have ht := h.parse_render t
  rw [he, h.parse_render u] at ht
  exact (Option.some.inj ht).symm

inductive ParkingType where
  | rack | parkingFacility | indoor | secured | locker | other
  deriving DecidableEq

def ParkingType.asCode : ParkingType → String
  | .rack => "rack"
  | .parkingFacility => "parking_facility"
  | .indoor => "indoor"
  | .secured => "secured"
  | .locker => "locker"
  | .other => "other"

def ParkingType.fromCode (code : String) : Option ParkingType :=
  [.rack, .parkingFacility, .indoor, .secured, .locker, .other].find? fun t =>
    decide (t.asCode = code)

inductive PricingUnit where
  | hour | day | month | entry
  deriving DecidableEq

def PricingUnit.asCode : PricingUnit → String
  | .hour => "hour"
  | .day => "day"
  | .month => "month"
  | .entry => "entry"

def PricingUnit.fromCode (code : String) : Option PricingUnit :=
  [.hour, .day, .month, .entry].find? fun u => decide (u.asCode = code)

/-- Three upper-case ASCII letters. -/
structure CurrencyCode where
  text : String
  valid : text.toList.length = 3 ∧ text.toList.all Char.isUpper = true
  deriving DecidableEq

/-- A letter that was put in upper case is in upper case. -/
theorem all_isUpper_of_isAlpha {cs : List Char} (h : (cs.map Char.toUpper).all Char.isAlpha = true) :
    (cs.map Char.toUpper).all Char.isUpper = true := by
  rw [List.all_eq_true] at *
  intro c hc
  have alpha := h c hc
  obtain ⟨d, -, rfl⟩ := List.mem_map.mp hc
  rwa [Char.isUpper_toUpper_eq_isAlpha, ← Char.isAlpha_toUpper_eq_isAlpha]

def CurrencyCode.parse (code : String) : Option CurrencyCode :=
  let code := String.ofList ((trim code).toList.map Char.toUpper)
  if h : code.toList.length = 3 ∧ code.toList.all Char.isAlpha = true then
    some ⟨code, h.1, by
      have alpha := h.2
      rw [String.toList_ofList] at *
      exact all_isUpper_of_isAlpha alpha⟩
  else none

structure Money where
  cents : ℤ
  currency : CurrencyCode
  unit : PricingUnit
  deriving DecidableEq

inductive Cost where
  | free
  | paid (price : Option Money)
  | unknown
  deriving DecidableEq

inductive CostKind where
  | free | paid | unknown
  deriving DecidableEq

def CostKind.asCode : CostKind → String
  | .free => "free"
  | .paid => "paid"
  | .unknown => "unknown"

def Cost.kind : Cost → CostKind
  | .free => .free
  | .paid _ => .paid
  | .unknown => .unknown

def Cost.fromKindAndPrice (kind : String) (price : Option Money) : Option Cost :=
  if kind = "free" then some .free
  else if kind = "paid" then some (.paid price)
  else if kind = "unknown" then some .unknown
  else none

inductive SecurityState where
  | unknown | yes | no
  deriving DecidableEq

def stateSmallint : SecurityState → ℤ
  | .unknown => 0
  | .yes => 1
  | .no => 2

def SecurityState.fromSmallint (v : ℤ) : Option SecurityState :=
  if v = 0 then some .unknown
  else if v = 1 then some .yes
  else if v = 2 then some .no
  else none

def securityFeatureCodes : List String :=
  ["dedicated_locking_point", "indoor", "cctv", "staffed", "security_guard",
    "controlled_access", "well_lit", "restricted_access"]

def isKnownSecurityCode (code : String) : Bool := securityFeatureCodes.contains code

structure SecurityFeature where
  code : String
  state : SecurityState
  deriving DecidableEq

/-- The state a feature list gives a code: the first entry, unknown when absent. -/
def securityStateOf (security : List SecurityFeature) (code : String) : SecurityState :=
  ((security.find? fun f => decide (f.code = code)).map SecurityFeature.state).getD .unknown

inductive ModerationState where
  | active | pendingReview | flagged | invalid | removed
  deriving DecidableEq

def ModerationState.asCode : ModerationState → String
  | .active => "ACTIVE"
  | .pendingReview => "PENDING_REVIEW"
  | .flagged => "FLAGGED"
  | .invalid => "INVALID"
  | .removed => "REMOVED"

def inRange (lat lon : ℚ) : Prop := -90 ≤ lat ∧ lat ≤ 90 ∧ -180 ≤ lon ∧ lon ≤ 180

instance (lat lon : ℚ) : Decidable (inRange lat lon) :=
  inferInstanceAs (Decidable (_ ∧ _ ∧ _ ∧ _))

/-- Coordinates are finite doubles; no operation here rounds them, so they are taken as
rationals. -/
structure GeoPoint where
  lat : ℚ
  lon : ℚ
  valid : inRange lat lon
  deriving DecidableEq

def GeoPoint.new (lat lon : ℚ) : Option GeoPoint :=
  if h : inRange lat lon then some ⟨lat, lon, h⟩ else none

structure TimeRange where
  opensAt : NaiveTime
  closesAt : NaiveTime
  allDay : Bool
  deriving DecidableEq

/-- The canonical bounds of an all-day row. -/
def TimeRange.allDayRange : TimeRange := ⟨.midnight, .lastSecond, true⟩

inductive OpeningHours where
  | unknown
  | weekly (rows : List (ℕ × TimeRange))
  deriving DecidableEq

def OpeningHours.isUnknown : OpeningHours → Bool
  | .unknown => true
  | .weekly _ => false

def OpeningHours.rows : OpeningHours → List (ℕ × TimeRange)
  | .unknown => []
  | .weekly rows => rows

structure ParkingEdit where
  name : String
  address : String
  description : Option String
  parkingType : ParkingType
  cost : Cost
  hours : OpeningHours
  security : List SecurityFeature
  deriving DecidableEq

structure NewParkingLocation where
  name : String
  address : String
  description : Option String
  parkingType : ParkingType
  cost : Cost
  point : GeoPoint
  timezone : Option Tz
  hours : OpeningHours
  security : List SecurityFeature
  deriving DecidableEq

end Parking
