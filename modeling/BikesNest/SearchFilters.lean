import BikesNest.OpenNow

/-! The requests of the listing search and their filters. Both ways to ask read the filters from
the same input; a radius search normalises them in its request, a browse of the map takes them as
they are. Finite floating values are rationals. -/

namespace SearchFilters

open Parking Schema OpenNow

inductive CostFilter where
  | free | paid | unknown
  deriving DecidableEq

def CostFilter.fromCode (code : String) : Option CostFilter :=
  if code = "free" then some .free
  else if code = "paid" then some .paid
  else if code = "unknown" then some .unknown
  else none

/-- The text `filter_binds` sends for a cost. -/
def CostFilter.bind : CostFilter → String
  | .free => "free"
  | .paid => "paid"
  | .unknown => "unknown"

structure Filters where
  cost : Option CostFilter
  types : List ParkingType
  securityAll : List String
  openNow : Bool
  deriving DecidableEq

/-- Raw input from the web layer. -/
structure SearchInput where
  query : Option String
  lat : Option ℚ
  lon : Option ℚ
  radiusM : Option ℕ
  cost : Option String
  types : Option String
  security : Option String
  openNow : Bool
  sort : Option String
  pageSize : Option ℕ
  cursor : Option String
  bbox : Option String

/-- `str::split(',')`. -/
def splitCommas (s : String) : List String := (s.toList.splitOn ',').map String.ofList

/-- The codes of a comma-separated list, trimmed and without the blank ones. -/
def listedCodes (raw : Option String) : List String :=
  ((splitCommas (raw.getD "")).map trim).filter fun s => decide (s ≠ "")

/-- `filters`: unknown types are dropped, security codes are taken as they come. -/
def SearchInput.filters (input : SearchInput) : Filters where
  cost := input.cost.bind CostFilter.fromCode
  types := (splitCommas (input.types.getD "")).filterMap ParkingType.fromCode
  securityAll := listedCodes input.security
  openNow := input.openNow

/-- `Vec::dedup`: of equal neighbours one stays. -/
def dedupNeighbours {α : Type} [DecidableEq α] : List α → List α
  | [] => []
  | [a] => [a]
  | a :: b :: rest =>
    if a = b then dedupNeighbours (b :: rest) else a :: dedupNeighbours (b :: rest)

inductive SortBy where
  | recommended | distance | security | rating | recentlyVerified
  deriving DecidableEq

def SortBy.asCode : SortBy → String
  | .recommended => "recommended"
  | .distance => "distance"
  | .security => "security"
  | .rating => "rating"
  | .recentlyVerified => "recently_verified"

def SortBy.fromCode (code : String) : Option SortBy :=
  [.recommended, .distance, .security, .rating, .recentlyVerified].find? fun s =>
    decide (s.asCode = code)

@[simp] theorem SortBy.fromCode_asCode (s : SortBy) : SortBy.fromCode s.asCode = some s := by
  cases s <;> decide

structure Cursor where
  sort : SortBy
  v : ℚ
  id : ℤ
  deriving DecidableEq

/-- The JSON printer and parser, with the base 64 alphabet between them and the text of a
link. -/
structure Wire where
  print : Json → String
  parse : String → Option Json

def Cursor.json (c : Cursor) : Json :=
  .obj [("id", .num (.int c.id)), ("s", .str c.sort.asCode), ("v", .num (.float c.v))]

def Cursor.encode (wire : Wire) (c : Cursor) : String := wire.print c.json

def Cursor.decode (wire : Wire) (raw : String) : Option Cursor := do
  let json ← wire.parse raw
  let sort ← SortBy.fromCode (← (← json.get "s").asStr)
  let v ← (← json.get "v").asF64
  let id ← (← json.get "id").asI64
  pure ⟨sort, v, id⟩

/-- The filters as `SearchRequest::new` keeps them. -/
def requestFilters (f : Filters) : Filters where
  cost := f.cost
  types := dedupNeighbours (f.types.insertionSort fun a b => a.asCode ≤ b.asCode)
  securityAll := dedupNeighbours
    (((f.securityAll.map trim).filter isKnownSecurityCode).insertionSort (· ≤ ·))
  openNow := f.openNow

structure SearchRequest where
  origin : GeoPoint
  destinationLabel : Option String
  radiusM : ℕ
  filters : Filters
  sort : SortBy
  pageSize : ℕ
  cursor : Option Cursor

def radiusOptionsM : List ℕ := [250, 500, 1000, 2000, 5000]
def defaultRadiusM : ℕ := 1000
def defaultPageSize : ℕ := 20
def maxPageSize : ℕ := 100

/-- A cursor that is invalid or of another sort starts over. -/
def SearchRequest.new (wire : Wire) (origin : GeoPoint) (destinationLabel : Option String)
    (radiusM : ℕ) (filters : Filters) (sort : SortBy) (pageSize : ℕ) (cursorRaw : Option String) :
    SearchRequest where
  origin := origin
  destinationLabel := destinationLabel
  radiusM := if radiusM ∈ radiusOptionsM then radiusM else defaultRadiusM
  filters := requestFilters filters
  sort := sort
  pageSize := max 1 (min pageSize maxPageSize)
  cursor := (cursorRaw.bind (Cursor.decode wire)).filter fun c => decide (c.sort = sort)

/-- The request of `resolve`, once the origin and its label are settled. -/
def SearchInput.request (wire : Wire) (input : SearchInput) (point : GeoPoint)
    (label : Option String) : SearchRequest :=
  .new wire point label (input.radiusM.getD defaultRadiusM) input.filters
    ((input.sort.bind SortBy.fromCode).getD .recommended) (input.pageSize.getD defaultPageSize)
    input.cursor

structure BoundsQuery where
  west : ℚ
  south : ℚ
  east : ℚ
  north : ℚ
  center : GeoPoint
  filters : Filters
  limit : ℕ

def maxBrowseSpanDeg : ℚ := 1
def browseMarkerCap : ℕ := 200

/-- `parse`. A number that does not parse and one that is not finite are refused alike. -/
def BoundsQuery.parse (parseF64 : String → Option ℚ) (raw : String) (filters : Filters)
    (limit : ℕ) : Option BoundsQuery :=
  match (splitCommas raw).mapM fun p => parseF64 (trim p) with
  | some [west, south, east, north] =>
    if |west| > 180 ∨ |east| > 180 ∨ |south| > 90 ∨ |north| > 90 then none
    else if west ≥ east ∨ south ≥ north then none
    else if east - west > maxBrowseSpanDeg ∨ north - south > maxBrowseSpanDeg then none
    else (GeoPoint.new ((south + north) / 2) ((west + east) / 2)).map fun center =>
      ⟨west, south, east, north, center, filters, max 1 (min limit browseMarkerCap)⟩
  | _ => none

inductive SearchError where
  | boundsNotPaginated | invalidBounds
  deriving DecidableEq

/-- `browse` up to its statements. -/
def SearchInput.browse (parseF64 : String → Option ℚ) (input : SearchInput) :
    Except SearchError BoundsQuery :=
  if input.cursor.any fun c => decide (trim c ≠ "") then .error .boundsNotPaginated
  else
    match BoundsQuery.parse parseF64 (input.bbox.getD "") input.filters browseMarkerCap with
    | some query => .ok query
    | none => .error .invalidBounds

theorem BoundsQuery.parse_filters {parseF64 : String → Option ℚ} {raw : String} {f : Filters}
    {limit : ℕ} {query : BoundsQuery} (h : BoundsQuery.parse parseF64 raw f limit = some query) :
    query.filters = f := by
  unfold BoundsQuery.parse at h
  split at h
  · split_ifs at h
    obtain ⟨center, -, rfl⟩ := Option.map_eq_some_iff.mp h
    rfl
  · cases h

theorem browse_filters {parseF64 : String → Option ℚ} {input : SearchInput} {query : BoundsQuery}
    (h : input.browse parseF64 = .ok query) : query.filters = input.filters := by
  unfold SearchInput.browse at h
  split_ifs at h
  split at h
  · rename_i parsed
    cases h
    exact BoundsQuery.parse_filters parsed
  · cases h

structure Binds where
  cost : Option String
  types : Option (List String)
  securityAll : Option (List String)

/-- `filter_binds`: an empty list is sent as `NULL`. -/
def filterBinds (f : Filters) : Binds where
  cost := f.cost.map CostFilter.bind
  types := if f.types = [] then none else some (f.types.map ParkingType.asCode)
  securityAll := if f.securityAll = [] then none else some f.securityAll

/-- A row of `parking_security` confirms the code. -/
def confirmed (s : Store) (pl : LocationRow) (code : String) : Bool :=
  s.security.rows.any fun ps =>
    decide (ps.locationId = pl.id ∧ ps.featureCode = code ∧ ps.state = 1)

/-- What `FILTERS` and `BOUNDS_FILTERS` ask of a row beside its place on the map. -/
def criteria (env : Env) (zones : Zones) (s : Store) (binds : Binds) (openNow : Bool)
    (now : Instant) (pl : LocationRow) : Bool :=
  decide (pl.moderationState = .active) &&
    binds.cost.all (fun cost => decide (pl.costKind.asCode = cost)) &&
    binds.types.all (fun types => types.contains pl.parkingType.asCode) &&
    (!openNow || isOpenAt env zones s pl.id pl.timezone now) &&
    (binds.securityAll.getD []).all (confirmed s pl)

/-- The criteria under filters that were bound for a statement. -/
def accepts (env : Env) (zones : Zones) (s : Store) (f : Filters) (now : Instant)
    (pl : LocationRow) : Bool :=
  criteria env zones s (filterBinds f) f.openNow now pl

/-- What the database knows of the earth. -/
structure Geography where
  /-- `ST_DWithin`, in meters. -/
  dWithin : LocationRow → GeoPoint → ℕ → Bool
  /-- `&&` with the envelope west, south, east, north. -/
  overlaps : LocationRow → ℚ → ℚ → ℚ → ℚ → Bool
  /-- `<->`, on the sphere. -/
  sphereDistance : LocationRow → GeoPoint → ℚ
  /-- `ST_Distance`, on the spheroid. -/
  distance : LocationRow → GeoPoint → ℚ

/-- The circle of a radius search. -/
def inCircle (geo : Geography) (request : SearchRequest) (pl : LocationRow) : Bool :=
  geo.dWithin pl request.origin request.radiusM

/-- The box of a browse. -/
def inBox (geo : Geography) (query : BoundsQuery) (pl : LocationRow) : Bool :=
  geo.overlaps pl query.west query.south query.east query.north

/-- `FILTERS`. -/
def searchFilters (geo : Geography) (env : Env) (zones : Zones) (s : Store)
    (request : SearchRequest) (now : Instant) (pl : LocationRow) : Bool :=
  inCircle geo request pl && accepts env zones s request.filters now pl

/-- `BOUNDS_FILTERS`. -/
def boundsFilters (geo : Geography) (env : Env) (zones : Zones) (s : Store) (query : BoundsQuery)
    (now : Instant) (pl : LocationRow) : Bool :=
  inBox geo query pl && accepts env zones s query.filters now pl

section Accepts

variable {env : Env} {zones : Zones} {s : Store} {now : Instant} {pl : LocationRow} {f : Filters}

@[simp] theorem mem_dedupNeighbours {α : Type} [DecidableEq α] {rows : List α} {a : α} :
    a ∈ dedupNeighbours rows ↔ a ∈ rows := by
  induction rows using dedupNeighbours.induct with
  | case1 => rfl
  | case2 b => rfl
  | case3 b rest ih =>
    rw [dedupNeighbours, if_pos rfl, ih]
    simp
  | case4 b c rest different ih =>
    rw [dedupNeighbours, if_neg different, List.mem_cons, ih]
    exact List.mem_cons.symm

@[simp] theorem dedupNeighbours_eq_nil {α : Type} [DecidableEq α] {rows : List α} :
    dedupNeighbours rows = [] ↔ rows = [] := by
  simp only [List.eq_nil_iff_forall_not_mem, mem_dedupNeighbours]

@[simp] theorem mem_requestFilters_types {t : ParkingType} :
    t ∈ (requestFilters f).types ↔ t ∈ f.types := by
  simp [requestFilters, List.mem_insertionSort]

@[simp] theorem mem_requestFilters_securityAll {code : String} :
    code ∈ (requestFilters f).securityAll ↔
      code ∈ f.securityAll.map trim ∧ isKnownSecurityCode code = true := by
  simp [requestFilters, List.mem_insertionSort]

theorem asCode_injective : Function.Injective ParkingType.asCode := by
  intro a b h
  cases a <;> cases b <;> first | rfl | simp [ParkingType.asCode] at h

/-- A row passes the criteria when it passes each filter that is set. -/
theorem accepts_iff : accepts env zones s f now pl = true ↔
    pl.moderationState = .active ∧ (∀ c ∈ f.cost, pl.costKind.asCode = c.bind) ∧
      (f.types = [] ∨ pl.parkingType ∈ f.types) ∧
      (f.openNow = true → isOpenAt env zones s pl.id pl.timezone now = true) ∧
      ∀ code ∈ f.securityAll, confirmed s pl code = true := by
  have types : (filterBinds f).types.all (fun types => types.contains pl.parkingType.asCode) = true
      ↔ f.types = [] ∨ pl.parkingType ∈ f.types := by
    by_cases none : f.types = []
    · simp [filterBinds, none]
    · simp [filterBinds, none, List.mem_map, asCode_injective.eq_iff]
  have security : ((filterBinds f).securityAll.getD []).all (confirmed s pl) = true ↔
      ∀ code ∈ f.securityAll, confirmed s pl code = true := by
    by_cases none : f.securityAll = []
    · simp [filterBinds, none]
    · simp [filterBinds, none]
  have cost : (filterBinds f).cost.all (fun cost => decide (pl.costKind.asCode = cost)) = true ↔
      ∀ c ∈ f.cost, pl.costKind.asCode = c.bind := by
    cases h : f.cost <;> simp [filterBinds, h]
  have opened : (!f.openNow || isOpenAt env zones s pl.id pl.timezone now) = true ↔
      (f.openNow = true → isOpenAt env zones s pl.id pl.timezone now = true) := by
    cases f.openNow <;> simp
  rw [accepts, criteria, Bool.and_eq_true, Bool.and_eq_true, Bool.and_eq_true, Bool.and_eq_true,
    decide_eq_true_eq, types, security, cost, opened]
  tauto

theorem requestFilters_accepts_iff : accepts env zones s (requestFilters f) now pl = true ↔
    pl.moderationState = .active ∧ (∀ c ∈ f.cost, pl.costKind.asCode = c.bind) ∧
      (f.types = [] ∨ pl.parkingType ∈ f.types) ∧
      (f.openNow = true → isOpenAt env zones s pl.id pl.timezone now = true) ∧
      ∀ code ∈ f.securityAll.map trim, isKnownSecurityCode code = true →
        confirmed s pl code = true := by
  have types : (requestFilters f).types = [] ↔ f.types = [] := by
    simp only [List.eq_nil_iff_forall_not_mem, mem_requestFilters_types]
  rw [accepts_iff, types]
  simp only [mem_requestFilters_types, mem_requestFilters_securityAll, and_imp]
  rfl

theorem trim_of_listed {raw : Option String} {code : String} (h : code ∈ listedCodes raw) :
    trim code = code := by
  obtain ⟨piece, -, rfl⟩ := List.mem_map.mp (List.mem_of_mem_filter h)
  exact trim_trim piece

/-- A browse asks more of a listing: that it confirms the codes that no listing can have. -/
theorem browse_accepts_iff (input : SearchInput) :
    accepts env zones s input.filters now pl = true ↔
      accepts env zones s (requestFilters input.filters) now pl = true ∧
        ∀ code ∈ listedCodes input.security, isKnownSecurityCode code = false →
          confirmed s pl code = true := by
  have same : input.filters.securityAll.map trim = listedCodes input.security := by
    refine (List.map_congr_left fun code hc => ?_).trans (List.map_id _)
    exact trim_of_listed hc
  rw [accepts_iff, requestFilters_accepts_iff, same]
  constructor
  · rintro ⟨active, cost, types, opened, security⟩
    exact ⟨⟨active, cost, types, opened, fun code hc _ => security code hc⟩,
      fun code hc _ => security code hc⟩
  · rintro ⟨⟨active, cost, types, opened, known⟩, unknown⟩
    refine ⟨active, cost, types, opened, fun code hc => ?_⟩
    cases h : isKnownSecurityCode code with
    | true => exact known code hc h
    | false => exact unknown code hc h

end Accepts

section Model

/-- A listing that is open all week and confirms every known code. -/
def openListing (f : Filters) : LocationRow where
  id := 1
  name := "Rack"
  address := "Street 1"
  description := none
  parkingType := f.types.headD .rack
  costKind :=
    match f.cost with
    | some .paid => .paid
    | some .unknown => .unknown
    | _ => .free
  priceCents := none
  priceCurrency := none
  priceUnit := none
  lat := 0
  lon := 0
  timezone := "UTC"
  hoursUnknown := false
  moderationState := .active
  version := 1
  creatorId := none
  ratingAvg := none
  ratingCount := 0
  lastVerifiedAt := none

def openStore (f : Filters) : Store :=
  { Schema.empty with
    locations := ⟨[openListing f], by simp⟩
    hours := ⟨[1, 2, 3, 4, 5, 6, 7].map fun day => ⟨1, day, 0, 0, true⟩, by decide⟩
    security := ⟨securityFeatureCodes.map fun code => ⟨1, code, 1⟩, by decide⟩ }

variable (env : Env) (zones : Zones) (f : Filters) (now : Instant)

theorem openStore_open : isOpenAt env zones (openStore f) 1 "UTC" now = true := by
  have hours : hoursOf (openStore f) 1 =
      [1, 2, 3, 4, 5, 6, 7].map fun day => ⟨1, day, 0, 0, true⟩ := rfl
  rw [isOpenAt, hours, List.any_map, List.any_eq_true]
  have bounds : isoDay (zones "UTC" now).date ∈ [1, 2, 3, 4, 5, 6, 7] := by
    simp only [isoDay, List.mem_cons, List.not_mem_nil, or_false]
    omega
  exact ⟨_, bounds, decide_eq_true (Or.inl ⟨rfl, Or.inl rfl⟩)⟩

theorem confirmed_openStore {code : String} :
    confirmed (openStore f) (openListing f) code = isKnownSecurityCode code := by
  rw [Bool.eq_iff_iff, confirmed, isKnownSecurityCode, List.any_eq_true, List.contains_iff_mem]
  constructor
  · rintro ⟨ps, hps, h⟩
    obtain ⟨known, hk, rfl⟩ := List.mem_map.mp hps
    obtain ⟨-, rfl, -⟩ := of_decide_eq_true h
    exact hk
  · intro known
    exact ⟨_, List.mem_map.mpr ⟨code, known, rfl⟩, decide_eq_true ⟨rfl, rfl, rfl⟩⟩

theorem openListing_accepted :
    accepts env zones (openStore f) (requestFilters f) now (openListing f) = true := by
  rw [requestFilters_accepts_iff]
  refine ⟨rfl, ?_, ?_, fun _ => openStore_open env zones f now, ?_⟩
  · intro c hc
    have : f.cost = some c := hc
    cases c <;> simp [openListing, this, CostKind.asCode, CostFilter.bind]
  · cases h : f.types with
    | nil => exact Or.inl rfl
    | cons t rest =>
      right
      simp [openListing, h]
  · intro code _ known
    rw [confirmed_openStore, known]

end Model

/-- Browsing and searching accept the same listings exactly when every security code of the
input is a known one; then both count a listing that lies in the box and in the circle, or
neither does. -/
theorem filters_agree_iff (geo : Geography) (env : Env) (zones : Zones) (wire : Wire)
    (parseF64 : String → Option ℚ) (input : SearchInput) :
    ((∀ s now pl, accepts env zones s input.filters now pl =
        accepts env zones s (requestFilters input.filters) now pl) ↔
      ∀ code ∈ listedCodes input.security, isKnownSecurityCode code = true) ∧
    ((∀ code ∈ listedCodes input.security, isKnownSecurityCode code = true) →
      ∀ query, input.browse parseF64 = .ok query → ∀ point label s now pl,
        inBox geo query pl = true → inCircle geo (input.request wire point label) pl = true →
          boundsFilters geo env zones s query now pl =
            searchFilters geo env zones s (input.request wire point label) now pl) := by
  have agree : (∀ code ∈ listedCodes input.security, isKnownSecurityCode code = true) →
      ∀ s now pl, accepts env zones s input.filters now pl =
        accepts env zones s (requestFilters input.filters) now pl := by
    intro known s now pl
    rw [Bool.eq_iff_iff, browse_accepts_iff]
    apply and_iff_left_of_imp
    intro _ code hc unknown
    simp [known code hc] at unknown
  refine ⟨⟨?_, agree⟩, ?_⟩
  · intro same code hc
    have accepted := openListing_accepted env zones input.filters 0
    rw [← same, browse_accepts_iff] at accepted
    cases h : isKnownSecurityCode code with
    | true => rfl
    | false =>
      have := accepted.2 code hc h
      rw [confirmed_openStore, h] at this
      exact this
  · intro known query browsed point label s now pl box circle
    have filters : query.filters = input.filters := browse_filters browsed
    rw [boundsFilters, searchFilters, box, circle, filters]
    exact congrArg _ (agree known s now pl)

/-- A code that is not known any more. -/
def staleInput : SearchInput where
  query := none
  lat := some 0
  lon := some 0
  radiusM := none
  cost := none
  types := none
  security := some "cctv, drone_patrol"
  openNow := false
  sort := none
  pageSize := none
  cursor := none
  bbox := some "-0.1,-0.1,0.1,0.1"

/-- With a stale code in the link the circle still finds a listing, and the map loses it. -/
theorem stale_code_empties_the_map :
    accepts Clock.env mondayMorning (openStore staleInput.filters)
      (requestFilters staleInput.filters) 0 (openListing staleInput.filters) = true ∧
    accepts Clock.env mondayMorning (openStore staleInput.filters) staleInput.filters 0
      (openListing staleInput.filters) = false := by
  refine ⟨openListing_accepted _ _ _ _, Bool.eq_false_iff.mpr ?_⟩
  intro accepted
  have confirms := ((browse_accepts_iff staleInput).mp accepted).2 "drone_patrol" (by decide) (by decide)
  rw [confirmed_openStore] at confirms
  exact absurd confirms (by decide)

end SearchFilters
