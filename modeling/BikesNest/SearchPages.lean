import BikesNest.Keyset
import BikesNest.SearchFilters

/-! Paging through the radius search. `SearchParking::page` asks the reader for one row more than
it shows; the reader counts the matching rows in one statement and picks those of the page in
another, by the keyset predicate on (sort key, id). -/

namespace SearchPages

open Parking Schema Outcome Details OpenNow SearchFilters RowOrder Keyset

structure RecommendationConfig where
  wDistance : ℚ
  wSecurity : ℚ
  wRating : ℚ
  wFreshness : ℚ
  wVerification : ℚ

structure FreshnessThresholds where
  freshDays : ℤ
  recentDays : ℤ
  agingDays : ℤ
  staleDays : ℤ

/-- The reader and its database. `float8` rounds a sort key to a floating value, in whatever
way; `photoKey` is the storage key of a listing's first approved photo. -/
structure SearchReader where
  geo : Geography
  env : Env
  zones : Zones
  float8 : ℚ → ℚ
  photoKey : LocationId → Option String
  recommendation : RecommendationConfig
  thresholds : FreshnessThresholds

structure ParkingSummary where
  id : LocationId
  name : String
  address : String
  parkingType : ParkingType
  cost : Cost
  point : GeoPoint
  distanceM : ℚ
  securityYes : List String
  rating : Rating
  lastVerifiedAt : Option Instant
  timezone : Tz
  isOpenNow : Bool
  photoKey : Option String
  sortKey : Option ℚ

variable (db : SearchReader) (s : Store) (request : SearchRequest) (now : Instant)

/-- The codes that `parking_security` confirms for a row, in order. -/
def securityYesCodes (s : Store) (pl : LocationRow) : List String :=
  ((s.security.filter fun ps => decide (ps.locationId = pl.id ∧ ps.state = 1)).map
    SecurityRow.featureCode).insertionSort (· ≤ ·)

/-- `sec.yes` of `SECURITY_COUNT_JOIN`. -/
def securityYes (s : Store) (pl : LocationRow) : ℕ :=
  s.security.count fun ps => decide (ps.locationId = pl.id ∧ ps.state = 1)

/-- `fr.days` of `FRESHNESS_DAYS_JOIN`. -/
def freshnessDays (now verified : Instant) : ℤ := max ((now - verified).tdiv 86400000000) 0

def freshnessScore (t : FreshnessThresholds) (days : ℤ) : ℚ :=
  if days < t.freshDays then 1
  else if days < t.recentDays then 3 / 4
  else if days < t.agingDays then 1 / 2
  else if days < t.staleDays then 1 / 4
  else 1 / 10

/-- The score; an input that is missing counts half. -/
def recommendationScore (pl : LocationRow) : ℚ :=
  let w := db.recommendation
  let yes : ℚ := securityYes s pl
  w.wDistance * (1 - min (max (db.geo.distance pl request.origin / request.radiusM) 0) 1) +
    w.wSecurity * (if 0 < yes then min (yes / 8) 1 else 1 / 2) +
    w.wRating * ((pl.ratingAvg.map fun (avg : ℕ) => (avg : ℚ) / 100 / 5).getD (1 / 2)) +
    w.wFreshness * ((pl.lastVerifiedAt.map fun verified =>
      freshnessScore db.thresholds (freshnessDays now verified)).getD (1 / 2)) +
    w.wVerification * (if pl.lastVerifiedAt = none then 1 / 2 else 1)

/-- `RECOMMENDED_SORT_KEY`. -/
def recommendedSortKey (pl : LocationRow) : ℚ := -recommendationScore db s request now pl

/-- `sort_key_sql`. -/
def sortKey (pl : LocationRow) : ℚ :=
  db.float8 <|
    match request.sort with
    | .distance => db.geo.sphereDistance pl request.origin
    | .security => -(securityYes s pl : ℚ)
    | .rating => -(pl.ratingAvg.map fun (avg : ℕ) => (avg : ℚ) / 100).getD (5 / 2)
    | .recentlyVerified =>
      -(pl.lastVerifiedAt.map fun verified => (verified : ℚ) / 1000000).getD 0
    | .recommended => recommendedSortKey db s request now pl

/-- `(c.sort_key, c.id)`. -/
def position (pl : LocationRow) : ℚ ×ₗ ℤ := toLex (sortKey db s request now pl, (pl.id : ℤ))

def Cursor.position (c : Cursor) : ℚ ×ₗ ℤ := toLex (c.v, c.id)

/-- The columns that decorate a candidate, read by `summary_of`. -/
def summaryOf (pl : LocationRow) : Except ReaderError ParkingSummary := do
  let timezone ← orFail (db.env.parseTz pl.timezone) (.unexpected ("bad timezone " ++ pl.timezone))
  let price ← priceOf pl
  let cost ← orFail (Cost.fromKindAndPrice pl.costKind.asCode price)
    (.unexpected ("unknown cost kind: " ++ pl.costKind.asCode))
  let point ← orFail (GeoPoint.new pl.lat pl.lon) (.unexpected "coordinates out of range")
  let rating ← orFail (Rating.new pl.ratingAvg pl.ratingCount)
    (.unexpected "rating avg out of range")
  pure {
    id := pl.id
    name := pl.name
    address := pl.address
    parkingType := pl.parkingType
    cost := cost
    point := point
    distanceM := db.geo.distance pl request.origin
    securityYes := securityYesCodes s pl
    rating := rating
    lastVerifiedAt := pl.lastVerifiedAt
    timezone := timezone
    isOpenNow := isOpenAt db.env db.zones s pl.id pl.timezone now
    photoKey := db.photoKey pl.id
    sortKey := some (sortKey db s request now pl) }

def matching : List LocationRow :=
  s.locations.filter (searchFilters db.geo db.env db.zones s request now)

/-- Statement (a). -/
def count : ℕ := s.locations.count (searchFilters db.geo db.env db.zones s request now)

/-- Statement (b). No two rows share a position, so that their order is settled. -/
def page (cursor : Option Cursor) (limit : ℕ) : Except ReaderError (List ParkingSummary) :=
  (pageOf (stable (position db s request now)) (matching db s request now)
    (cursor.map Cursor.position) limit).mapM (summaryOf db s request now)

structure SearchPage where
  items : List ParkingSummary
  total : ℕ
  nextCursor : Option Cursor

/-- `search_at`. -/
def searchAt (limit : ℕ) (applyCursor : Bool) : Except ReaderError SearchPage := do
  let cursor := if applyCursor then request.cursor else none
  let total := count db s request now
  let items ← page db s request now cursor limit
  pure ⟨items, total, none⟩

/-- `SearchParking::page`. Every row that the reader returns carries its key. -/
def searchPage : Except ReaderError SearchPage := do
  let page ← searchAt db s request now (request.pageSize + 1) true
  if page.items.length > request.pageSize then
    let items := page.items.take request.pageSize
    let nextCursor := do
      let last ← items.getLast?
      let v ← last.sortKey
      pure ⟨request.sort, v, (last.id : ℤ)⟩
    pure ⟨items, page.total, nextCursor⟩
  else pure ⟨page.items, page.total, none⟩

/-- The link to a next page: the same request with the encoded cursor. -/
def nextLink (wire : Wire) : Except ReaderError SearchPage → Option String
  | .ok page => page.nextCursor.map (Cursor.encode wire)
  | .error _ => none

/-- What a page shows; a failed one shows nothing. -/
def shownItems : Except ReaderError SearchPage → List ParkingSummary
  | .ok page => page.items
  | .error _ => []

/-- What the columns of a row and the services that write them promise. -/
structure WellFormed (env : Env) (pl : LocationRow) : Prop where
  bigint : (pl.id : ℤ) < 2 ^ 63
  timezone : (env.parseTz pl.timezone).isSome
  currency : ∀ c ∈ pl.priceCurrency, (CurrencyCode.parse c).isSome
  point : inRange pl.lat pl.lon
  rating : ∀ avg ∈ pl.ratingAvg, avg ≤ 500

/-- A store whose listings are well formed. -/
structure Listings (env : Env) where
  store : Store
  wellFormed : ∀ pl ∈ store.locations, WellFormed env pl

section Statements

variable {db s request now} {pl : LocationRow}

/-- An item that the page shows for a row. -/
def Shows (db : SearchReader) (s : Store) (request : SearchRequest) (now : Instant)
    (pl : LocationRow) (item : ParkingSummary) : Prop :=
  summaryOf db s request now pl = .ok item

theorem Shows.carries {item : ParkingSummary} (h : Shows db s request now pl item) :
    item.id = pl.id ∧ item.sortKey = some (sortKey db s request now pl) := by
  simp only [Shows, summaryOf, bind_ok, pure_ok] at h
  obtain ⟨_, -, _, -, _, -, _, -, _, -, rfl⟩ := h
  exact ⟨rfl, rfl⟩

theorem WellFormed.shows (h : WellFormed db.env pl) : ∃ item, Shows db s request now pl item := by
  obtain ⟨timezone, htz⟩ := Option.isSome_iff_exists.mp h.timezone
  obtain ⟨price, hprice⟩ : ∃ price, priceOf pl = .ok price := by
    unfold priceOf
    split
    · rename_i cents currency unit _ hcur _
      obtain ⟨code, hcode⟩ := Option.isSome_iff_exists.mp (h.currency currency hcur)
      exact ⟨some ⟨cents, code, unit⟩, by simp [hcode, orFail]⟩
    · exact ⟨none, rfl⟩
  obtain ⟨cost, hcost⟩ : ∃ cost, Cost.fromKindAndPrice pl.costKind.asCode price = some cost := by
    cases pl.costKind <;> simp [Cost.fromKindAndPrice, CostKind.asCode]
  have hpoint : GeoPoint.new pl.lat pl.lon = some ⟨pl.lat, pl.lon, h.point⟩ := dif_pos h.point
  obtain ⟨rating, hrating⟩ : ∃ rating, Rating.new pl.ratingAvg pl.ratingCount = some rating :=
    ⟨_, if_pos h.rating⟩
  simp only [Shows, summaryOf, bind_ok, orFail_ok, pure_ok]
  exact ⟨_, timezone, htz, price, hprice, cost, hcost, _, hpoint, rating, hrating, rfl⟩

theorem exists_shows {rows : List LocationRow} (h : ∀ pl ∈ rows, WellFormed db.env pl) :
    ∃ items, List.Forall₂ (Shows db s request now) rows items := by
  induction rows with
  | nil => exact ⟨[], .nil⟩
  | cons pl rows ih =>
    obtain ⟨item, shows⟩ := @WellFormed.shows db s request now pl (h pl List.mem_cons_self)
    obtain ⟨items, rest⟩ := ih fun q hq => h q (List.mem_cons_of_mem pl hq)
    exact ⟨item :: items, .cons shows rest⟩

/-- Rows that can be shown are read without an error, in their order. -/
theorem mapM_shows {rows : List LocationRow} {items : List ParkingSummary}
    (h : List.Forall₂ (Shows db s request now) rows items) :
    rows.mapM (summaryOf db s request now) = .ok items := by
  induction h with
  | nil => rfl
  | cons shows _ ih =>
    rw [List.mapM_cons, shows, ih]
    rfl

theorem position_distinct {rows : List LocationRow} (distinct : (rows.map LocationRow.id).Nodup) :
    (rows.map (position db s request now)).Nodup := by
  rw [List.Nodup, List.pairwise_map] at distinct ⊢
  refine distinct.imp fun different same => ?_
  have ids : ((_ : ℕ) : ℤ) = ((_ : ℕ) : ℤ) := congrArg (fun p => (ofLex p).2) same
  exact different (Int.ofNat_inj.mp ids)

theorem matching_distinct : ((matching db s request now).map (position db s request now)).Nodup :=
  position_distinct ((List.filter_sublist.map LocationRow.id).nodup s.locations.distinct)

theorem count_eq : count db s request now = (matching db s request now).length :=
  List.countP_eq_length_filter

theorem exists_shown {rows : List LocationRow} {items : List ParkingSummary}
    (h : List.Forall₂ (Shows db s request now) rows items) {i : ℕ} {pl : LocationRow}
    (hpl : rows[i]? = some pl) : ∃ item, items[i]? = some item ∧ Shows db s request now pl item := by
  induction h generalizing i with
  | nil => simp at hpl
  | cons shows _ ih =>
    cases i with
    | zero =>
      cases hpl
      exact ⟨_, rfl, shows⟩
    | succ i => exact ih hpl

/-- The rows after the cursor of the request. -/
abbrev rest (db : SearchReader) (s : Store) (request : SearchRequest) (now : Instant) :
    List LocationRow :=
  remaining (position db s request now) (matching db s request now)
    (request.cursor.map Cursor.position)

/-- What a page of the search is. -/
structure PageOf (db : SearchReader) (s : Store) (request : SearchRequest) (now : Instant)
    (page : SearchPage) : Prop where
  total : page.total = (matching db s request now).length
  items : List.Forall₂ (Shows db s request now)
    (pageOf (stable (position db s request now)) (matching db s request now)
      (request.cursor.map Cursor.position) request.pageSize) page.items
  ended : page.nextCursor = none → (rest db s request now).length ≤ request.pageSize
  continued : ∀ c, page.nextCursor = some c → page.items.length = request.pageSize ∧
    ∃ x, ((stable (position db s request now)).sort (rest db s request now))[request.pageSize - 1]?
      = some x ∧ c = ⟨request.sort, sortKey db s request now x, (x.id : ℤ)⟩

theorem searchPage_spec (wf : ∀ pl ∈ s.locations, WellFormed db.env pl)
    (positive : 0 < request.pageSize) :
    ∃ page, searchPage db s request now = .ok page ∧ PageOf db s request now page := by
  set S := (stable (position db s request now)).sort (rest db s request now) with hS
  have length : S.length = (rest db s request now).length := length_sort _ _
  have readable : ∀ pl ∈ S.take (request.pageSize + 1), WellFormed db.env pl := by
    intro pl hpl
    have stored : pl ∈ matching db s request now :=
      (mem_remaining.mp ((mem_sort _).mp (List.mem_of_mem_take hpl))).1
    exact wf pl (Table.mem_filter.mp stored).1
  obtain ⟨items, shows⟩ := @exists_shows db s request now _ readable
  have found : searchAt db s request now (request.pageSize + 1) true =
      .ok ⟨items, count db s request now, none⟩ := by
    simp only [searchAt, page, pageOf, if_true]
    rw [← hS, mapM_shows shows]
    rfl
  have many := shows.length_eq
  rw [List.length_take] at many
  by_cases more : request.pageSize < items.length
  · have bound : request.pageSize - 1 < S.length := by omega
    have cut : List.Forall₂ (Shows db s request now) (S.take request.pageSize)
        (items.take request.pageSize) := by
      have := List.forall₂_take request.pageSize shows
      rwa [List.take_take, Nat.min_eq_left (Nat.le_succ _)] at this
    have size : (items.take request.pageSize).length = request.pageSize := by
      rw [List.length_take]
      omega
    have kept : (S.take request.pageSize)[request.pageSize - 1]? =
        some S[request.pageSize - 1] := by
      rw [List.getElem?_take_of_lt (by omega)]
      exact List.getElem?_eq_getElem bound
    obtain ⟨item, shown, shows_last⟩ := exists_shown cut kept
    obtain ⟨id, key⟩ := shows_last.carries
    have last : (items.take request.pageSize).getLast? = some item := by
      rwa [List.getLast?_eq_getElem?, size]
    refine ⟨⟨items.take request.pageSize, count db s request now, some ⟨request.sort,
      sortKey db s request now S[request.pageSize - 1], (S[request.pageSize - 1].id : ℤ)⟩⟩,
      ?_, count_eq, ?_, ?_, ?_⟩
    · rw [searchPage, found]
      refine (if_pos more).trans ?_
      simp only [last, Option.bind_eq_bind, Option.bind_some, key, id]
      rfl
    · rwa [pageOf, ← hS]
    · intro none
      cases none
    · intro c hc
      cases hc
      exact ⟨size, _, List.getElem?_eq_getElem bound, rfl⟩
  · have all : S.take request.pageSize = S.take (request.pageSize + 1) := by
      rw [List.take_of_length_le (by omega), List.take_of_length_le (by omega)]
    refine ⟨⟨items, count db s request now, none⟩, ?_, count_eq, ?_, ?_, ?_⟩
    · rw [searchPage, found]
      exact if_neg more
    · rwa [pageOf, ← hS, all]
    · intro _
      omega
    · intro c hc
      cases hc

end Statements

/-- A cursor whose JSON survives the link is decoded to itself. -/
theorem decode_encode {wire : Wire} {c : Cursor}
    (survives : wire.parse (wire.print c.json) = some c.json) (low : -2 ^ 63 ≤ c.id)
    (high : c.id < 2 ^ 63) : Cursor.decode wire (Cursor.encode wire c) = some c := by
  have sort : c.json.get "s" = some (.str c.sort.asCode) := rfl
  have v : c.json.get "v" = some (.num (.float c.v)) := rfl
  have id : c.json.get "id" = some (.num (.int c.id)) := rfl
  have fits : Json.asI64 (.num (.int c.id)) = some c.id := if_pos ⟨low, high⟩
  simp [Cursor.decode, Cursor.encode, survives, sort, v, id, fits, Json.asStr, Json.asF64]

variable (db : SearchReader) (listings : Listings db.env) (wire : Wire) (origin : GeoPoint)
  (label : Option String) (radiusM : ℕ) (filters : Filters) (sort : SortBy) (pageSize : ℕ)
  (now : Instant)

/-- The request as a link asks for it. -/
abbrev asked (raw : Option String) : SearchRequest :=
  .new wire origin label radiusM filters sort pageSize raw

/-- What the pages of a whole walk show: every matching listing once, in ascending order of
(sort key, id), on full pages but for the last, each of which reports their number. -/
structure Complete (db : SearchReader) (s : Store) (request : SearchRequest) (now : Instant)
    (pages : List SearchPage) : Prop where
  shown : ∃ rows : List LocationRow, rows.Perm (matching db s request now) ∧
    (rows.Pairwise fun a b => position db s request now a < position db s request now b) ∧
    rows.mapM (summaryOf db s request now) = .ok (pages.flatMap SearchPage.items)
  full : ∀ p ∈ pages.dropLast, p.items.length = request.pageSize
  total : ∀ p ∈ pages, p.total = (pages.flatMap SearchPage.items).length

/-- The links followed from the first page, with one read more than there are rows to spare. -/
def searchWalk : Option (List (Except ReaderError SearchPage)) :=
  walk (nextLink wire)
    (fun _ raw => searchPage db listings.store
      (asked wire origin label radiusM filters sort pageSize raw) now)
    ((matching db listings.store (asked wire origin label radiusM filters sort pageSize none)
      now).length + 1) 0 none

theorem exists_pages {answers : List (Except ReaderError SearchPage)}
    (h : ∀ a ∈ answers, ∃ page, a = .ok page) : ∃ pages : List SearchPage,
      answers = pages.map .ok := by
  induction answers with
  | nil => exact ⟨[], rfl⟩
  | cons a answers ih =>
    obtain ⟨page, rfl⟩ := h a List.mem_cons_self
    obtain ⟨pages, rfl⟩ := ih fun b hb => h b (List.mem_cons_of_mem _ hb)
    exact ⟨page :: pages, rfl⟩

theorem flatMap_shownItems (pages : List SearchPage) :
    (pages.map Except.ok).flatMap shownItems = pages.flatMap SearchPage.items := by
  rw [List.flatMap_map]
  rfl

/-- The cursor that a page which ends at a row links to. -/
def cursorOf (pl : LocationRow) : Cursor :=
  ⟨sort, sortKey db listings.store (asked wire origin label radiusM filters sort pageSize none) now
    pl, (pl.id : ℤ)⟩

/-- Whatever page size is asked for, the walk ends and is complete. -/
theorem search_walk_complete
    (survives : ∀ pl ∈ matching db listings.store
        (asked wire origin label radiusM filters sort pageSize none) now,
      let c := cursorOf db listings wire origin label radiusM filters sort pageSize now pl
      wire.parse (wire.print c.json) = some c.json) :
    ∃ pages, searchWalk db listings wire origin label radiusM filters sort pageSize now =
        some (pages.map .ok) ∧
      Complete db listings.store (asked wire origin label radiusM filters sort pageSize none) now
        pages := by
  set request := asked wire origin label radiusM filters sort pageSize with hrequest
  set found := matching db listings.store (request none) now with hfound
  have positive : ∀ raw, 0 < (request raw).pageSize := fun raw => by
    have : 0 < max 1 (min pageSize maxPageSize) := by omega
    exact this
  have spec : ∀ raw, ∃ page, searchPage db listings.store (request raw) now = .ok page ∧
      PageOf db listings.store (request raw) now page := fun raw =>
    searchPage_spec listings.wellFormed (positive raw)
  have reads : ∀ (i : ℕ) raw, Reads (stable (position db listings.store (request none) now)) found
      (Shows db listings.store (request none) now)
      (fun raw => (request raw).cursor.map Cursor.position) shownItems (nextLink wire) raw
      ((request none).pageSize - 1) (searchPage db listings.store (request raw) now) := by
    intro _ raw
    obtain ⟨page, result, h⟩ := spec raw
    have limit : (request none).pageSize - 1 + 1 = (request raw).pageSize := by
      have := positive raw
      change (request raw).pageSize - 1 + 1 = (request raw).pageSize
      omega
    rw [result]
    refine ⟨?_, ?_, ?_⟩
    · rw [limit]
      exact h.items
    · intro ended
      rw [limit]
      exact h.ended (Option.map_eq_none_iff.mp ended)
    · intro following hlink
      obtain ⟨c, hc, rfl⟩ := Option.map_eq_some_iff.mp hlink
      obtain ⟨-, x, last, rfl⟩ := h.continued c hc
      refine ⟨x, last, ?_⟩
      have member : x ∈ found :=
        (mem_remaining.mp ((mem_sort _).mp (List.mem_of_getElem? last))).1
      have fits := (listings.wellFormed x (Table.mem_filter.mp member).1).bigint
      have decoded := decode_encode (survives x member) (by change _ ≤ (x.id : ℤ); omega) fits
      have same : (request (some (Cursor.encode wire _))).cursor = some _ :=
        (congrArg (Option.filter _) decoded).trans (Option.filter_some_pos (decide_eq_true rfl))
      exact congrArg (Option.map Cursor.position) same
  have distinct : (found.map (position db listings.store (request none) now)).Nodup :=
    matching_distinct
  have enough : (remaining (position db listings.store (request none) now) found
      ((request none).cursor.map Cursor.position)).length < found.length + 1 := by
    rw [Nat.lt_succ_iff]
    exact remaining_length_le _ _
  obtain ⟨pages, result, shown⟩ := walk_rows distinct reads enough 0
  have start : (request none).cursor.map Cursor.position = none := rfl
  simp only [start, remaining_none] at shown
  have each : ∀ p ∈ pages, ∃ page, p = .ok page ∧ page.total = found.length ∧
      (page.nextCursor.isSome → page.items.length = (request none).pageSize) := by
    refine walk_forall ?_ result
    intro _ raw
    obtain ⟨page, hpage, h⟩ := spec raw
    refine ⟨page, hpage, h.total, fun more => ?_⟩
    obtain ⟨c, hc⟩ := Option.isSome_iff_exists.mp more
    exact (h.continued c hc).1
  obtain ⟨pages, rfl⟩ := exists_pages fun p hp => (each p hp).imp fun _ h => h.1
  refine ⟨pages, result, ?_, ?_, ?_⟩
  · refine ⟨_, (stable _).perm found, sort_strict _ distinct, ?_⟩
    rw [flatMap_shownItems] at shown
    exact mapM_shows shown
  · intro p hp
    have inside : (.ok p : Except ReaderError SearchPage) ∈ (pages.map Except.ok).dropLast := by
      rw [← List.map_dropLast]
      exact List.mem_map.mpr ⟨p, hp, rfl⟩
    have more := walk_links result _ inside
    obtain ⟨_, same, -, full⟩ := each _ (List.mem_of_mem_dropLast inside)
    cases same
    exact full (by simpa [nextLink] using more)
  · intro p hp
    obtain ⟨_, same, total, -⟩ := each _ (List.mem_map.mpr ⟨p, hp, rfl⟩)
    cases same
    rw [total, ← flatMap_shownItems, ← shown.length_eq, length_sort]

section Racks

def rack (id : LocationId) : LocationRow := { openListing ⟨none, [], [], false⟩ with id := id }

/-- Three racks at the same distance. -/
def racks : Listings Clock.env where
  store := { Schema.empty with locations := ⟨[rack 3, rack 1, rack 2], by decide⟩ }
  wellFormed := by
    intro pl hpl
    have : pl = rack 3 ∨ pl = rack 1 ∨ pl = rack 2 := by simpa using Table.mem_rows.mp hpl
    rcases this with rfl | rfl | rfl <;>
      exact ⟨by decide, by decide, by decide, by decide, by decide⟩

def rackReader : SearchReader where
  geo := ⟨fun _ _ _ => true, fun _ _ _ _ _ => true, fun _ _ => 241 / 2, fun _ _ => 120⟩
  env := Clock.env
  zones := mondayMorning
  float8 := id
  photoKey _ := none
  recommendation := ⟨7 / 20, 1 / 4, 1 / 5, 3 / 20, 1 / 20⟩
  thresholds := ⟨30, 90, 180, 365⟩

def rackTexts : List (Json × String) :=
  [(Cursor.json ⟨.distance, 241 / 2, 1⟩, "eyJpZCI6MSwicyI6ImRpc3RhbmNlIiwidiI6MTIwLjV9"),
    (Cursor.json ⟨.distance, 241 / 2, 2⟩, "eyJpZCI6MiwicyI6ImRpc3RhbmNlIiwidiI6MTIwLjV9"),
    (Cursor.json ⟨.distance, 241 / 2, 3⟩, "eyJpZCI6MywicyI6ImRpc3RhbmNlIiwidiI6MTIwLjV9")]

/-- The printer and the parser on the cursors of the racks. -/
def rackWire : Wire where
  print json := ((rackTexts.find? fun t => decide (t.1 = json)).map Prod.snd).getD ""
  parse text := (rackTexts.find? fun t => decide (t.2 = text)).map Prod.fst

theorem rackWire_survives {id : ℤ} (h : id ∈ [1, 2, 3]) :
    rackWire.parse (rackWire.print (Cursor.json ⟨.distance, 241 / 2, id⟩)) =
      some (Cursor.json ⟨.distance, 241 / 2, id⟩) := by
  have : id = 1 ∨ id = 2 ∨ id = 3 := by simpa using h
  rcases this with rfl | rfl | rfl <;> simp [rackWire, rackTexts, Cursor.json]

/-- Two to a page, with the tie on the key across the link. -/
theorem racks_walk_complete :
    ∃ pages, searchWalk rackReader racks rackWire ⟨0, 0, by decide⟩ none 1000
        ⟨none, [], [], false⟩ .distance 2 0 = some (pages.map .ok) ∧
      Complete rackReader racks.store
        (asked rackWire ⟨0, 0, by decide⟩ none 1000 ⟨none, [], [], false⟩ .distance 2 none) 0
        pages := by
  apply search_walk_complete rackReader racks rackWire
  intro pl hpl
  have : pl = rack 3 ∨ pl = rack 1 ∨ pl = rack 2 := by
    have stored : pl ∈ [rack 3, rack 1, rack 2] := (Table.mem_filter.mp hpl).1
    simpa using stored
  rcases this with rfl | rfl | rfl
  · exact rackWire_survives (by decide)
  · exact rackWire_survives (by decide)
  · exact rackWire_survives (by decide)

end Racks

end SearchPages
