import BikesNest.HoursForm
import BikesNest.PayloadCodec

/-! A listing as it is read back after it was written: what each of the three statements of the
reader brings back of the value that was stored. -/

namespace ReadBack

open Parking Proposal Schema Outcome Publishing Contribution Operations Effects Details PayloadCodec
  HoursForm OpenNow SnapshotFidelity

/-- `details`, its three statements in one state of the store. -/
def details (env : Env) (s : Store) (id : LocationId) :
    Except ReaderError (Option ParkingLocation) :=
  match s.locations.find id with
  | some row => (toDomain env row (readHours s id) (readSecurity s id)).map some
  | none => .ok none

/-- What `to_domain` makes of a row, its hours and its features. -/
structure Reads (env : Env) (row : LocationRow) (hours : List HoursRow)
    (security : List SecurityRow) (parking : ParkingLocation) : Prop where
  id : parking.id = row.id
  name : parking.name = trim row.name
  address : parking.address = trim row.address
  description : parking.description = row.description
  parkingType : parking.parkingType = row.parkingType
  cost : ∃ price, priceOf row = .ok price ∧
    Cost.fromKindAndPrice row.costKind.asCode price = some parking.cost
  point : GeoPoint.new row.lat row.lon = some parking.point
  timezone : env.parseTz row.timezone = some parking.timezone
  hours : parking.hours = openingOf env row hours
  security : security.mapM featureOf = .ok parking.security
  moderationState : parking.moderationState = row.moderationState
  rating : Rating.new row.ratingAvg row.ratingCount = some parking.rating
  lastVerifiedAt : parking.lastVerifiedAt = row.lastVerifiedAt
  version : parking.version = row.version

variable {env : Env}

theorem toDomain_ok {row : LocationRow} {hours : List HoursRow} {security : List SecurityRow}
    {parking : ParkingLocation} :
    toDomain env row hours security = .ok parking ↔ Reads env row hours security parking := by
  simp only [toDomain, bind_ok, orFail_ok]
  constructor
  · rintro ⟨tz, zoned, price, priced, cost, costed, features, featured, point, pointed, rating,
      rated, h⟩
    split at h
    · simp at h
    · split at h
      · simp at h
      · obtain rfl := pure_ok.mp h
        exact ⟨rfl, rfl, rfl, rfl, rfl, ⟨price, priced, costed⟩, pointed, zoned, rfl, featured, rfl,
          rated, rfl, rfl⟩
  · intro h
    obtain ⟨price, priced, costed⟩ := h.cost
    refine ⟨_, h.timezone, price, priced, _, costed, _, h.security, _, h.point, _, h.rating, ?_⟩
    have named : trim row.name ≠ "" := h.name ▸ parking.named
    have addressed : trim row.address ≠ "" := h.address ▸ parking.addressed
    rw [dif_neg named, dif_neg addressed, pure_ok]
    cases parking
    simp only [ParkingLocation.mk.injEq, true_and]
    exact ⟨h.id.symm, h.name.symm, h.address.symm, h.description.symm, h.parkingType.symm,
      h.hours.symm, h.moderationState.symm, h.lastVerifiedAt.symm, h.version.symm⟩

theorem details_some {s : Store} {id : LocationId} {parking : ParkingLocation} :
    details env s id = .ok (some parking) ↔ ∃ row, s.locations.find id = some row ∧
      Reads env row (readHours s id) (readSecurity s id) parking := by
  unfold details
  cases found : s.locations.find id with
  | none => simp
  | some row =>
    change some <$> toDomain env row (readHours s id) (readSecurity s id) = _ ↔ _
    simp [map_ok, toDomain_ok]

/-! ### The price -/

/-- The four columns of a cost bring it back. -/
theorem priceOf_columns (row : LocationRow) (cost : Cost)
    (columns : (row.costKind, row.priceCents, row.priceCurrency, row.priceUnit) = costParts cost) :
    ∃ price, priceOf row = .ok price ∧
      Cost.fromKindAndPrice row.costKind.asCode price = some cost := by
  refine ⟨priceIn cost, ?_, ?_⟩
  · cases cost with
    | paid price =>
      cases price with
      | none =>
        simp only [costParts, Prod.mk.injEq] at columns
        simp [priceOf, columns, priceIn, pure_ok]
      | some p =>
        simp only [costParts, Prod.mk.injEq] at columns
        simp [priceOf, columns, priceIn, currency_parse, orFail]
    | _ =>
      simp only [costParts, Prod.mk.injEq] at columns
      simp [priceOf, columns, priceIn, pure_ok]
  · have kind : row.costKind = cost.kind := by
      have first : row.costKind = (costParts cost).1 := congrArg Prod.fst columns
      rw [first]
      cases cost with
      | paid price => cases price <;> rfl
      | _ => rfl
    rw [kind]
    exact fromKindAndPrice_priceIn cost

/-! ### The security features -/

/-- Every security row is about a feature of the catalogue. -/
def KnownSecurity (s : Store) : Prop :=
  ∀ k r, s.security.find k = some r → r.featureCode ∈ securityFeatureCodes

theorem perform_known {s t : Store} {op : Op} (h : perform env s op = .ok t)
    (known : KnownSecurity s) : KnownSecurity t := by
  cases perform_effect h with
  | kept hk => exact fun k r hr => known k r (hk.security ▸ hr)
  | created tz parts hc =>
    obtain ⟨-, security, same⟩ := hc.parts_eq
    intro k r hr
    rw [security] at hr
    exact known_write (same ▸ known) k r hr
  | edited loc row point tz parts he =>
    obtain ⟨-, security, same⟩ := he.parts_eq
    intro k r hr
    rw [security] at hr
    exact known_write (same ▸ known) k r hr
  | moderated old hm =>
    have security : t.security = s.security := by
      rw [hm.outcome]
      rfl
    exact fun k r hr => known k r (security ▸ hr)
  | approved prop loc row parts hp => exact known_published hp known
  | voted applied prop loc row parts hm hp => exact known_published hp known

theorem reachable_known (env : Env) (ops : List Op) : KnownSecurity (run env empty ops) := by
  refine run_invariant (P := KnownSecurity) ?_ (along_true _ ops) ?_
  · exact fun s t op known _ h => perform_known h known
  · intro k r hr
    simp [Schema.empty] at hr

/-- Rows that hold the states of a list are read as that list does. -/
theorem mapM_featureOf (security : List SecurityFeature) {rows : List SecurityRow}
    (stated : ∀ r ∈ rows, r.state = stateSmallint (securityStateOf security r.featureCode)) :
    rows.mapM featureOf =
      .ok (rows.map fun r => ⟨r.featureCode, securityStateOf security r.featureCode⟩) := by
  induction rows with
  | nil => rfl
  | cons row rows ih =>
    have first : featureOf row =
        .ok ⟨row.featureCode, securityStateOf security row.featureCode⟩ := by
      simp only [featureOf, stated row List.mem_cons_self, state_fromSmallint, orFail]
      rfl
    rw [List.mapM_cons, first, ih fun r hr => stated r (List.mem_cons_of_mem _ hr)]
    rfl

/-- The features that were written are read back, the whole catalogue of them. -/
theorem features_written {s t : Store} {id : LocationId} {security : List SecurityFeature}
    (known : KnownSecurity s) (h : t.security = (writeSecurity s id security).security) :
    ∃ features, (readSecurity t id).mapM featureOf = .ok features ∧
      features.Perm (catalogued security) := by
  have perm := readSecurity_write known h
  refine ⟨_, mapM_featureOf security fun r hr => ?_, ?_⟩
  · obtain ⟨code, -, rfl⟩ := List.mem_map.mp (perm.subset hr)
    rfl
  · have features := perm.map fun r =>
      SecurityFeature.mk r.featureCode (securityStateOf security r.featureCode)
    rwa [List.map_map] at features

/-! ### The opening hours -/

/-- The times of a range are whole seconds before 24:00. -/
def WholeSeconds (r : TimeRange) : Prop := r.opensAt.frac = 0 ∧ r.closesAt.frac = 0

/-- By day and opening time. -/
def Earlier (a b : ℕ × TimeRange) : Prop :=
  a.1 < b.1 ∨ (a.1 = b.1 ∧ a.2.opensAt ≤ b.2.opensAt)

theorem readHours_congr {s t : Store} (same : t.hours = s.hours) (id : LocationId) :
    readHours t id = readHours s id := by
  rw [readHours, readHours, hoursOf_congr same]

theorem storedRange_whole {r : TimeRange} (whole : WholeSeconds r) :
    (storedRange r).opensAt.frac = 0 ∧ (storedRange r).closesAt.frac = 0 := by
  rw [storedRange]
  split
  · exact ⟨rfl, rfl⟩
  · exact whole

section Hours

variable (counts : Counts env)
include counts

theorem carried_eq {r : TimeRange} (whole : WholeSeconds r) : carried env r = storedRange r := by
  obtain ⟨opens, closes⟩ := storedRange_whole whole
  rw [carried, carried_whole counts opens, carried_whole counts closes, storedRange]
  split
  · rename_i all
    rw [all]
    rfl
  · rfl

/-- Hours that were written are read back in order, an all-day row with its canonical bounds. -/
theorem opening_written {s t u : Store} {row : LocationRow} {hours : OpeningHours}
    (stored : writeHours env s row.id hours = .ok t) (same : u.hours = t.hours)
    (flag : row.hoursUnknown = hours.isUnknown) (whole : ∀ r ∈ hours.rows, WholeSeconds r.2) :
    (openingOf env row (readHours u row.id)).isUnknown = hours.isUnknown ∧
      (openingOf env row (readHours u row.id)).rows.Perm
        (hours.rows.map fun r => (r.1, storedRange r.2)) ∧
      (openingOf env row (readHours u row.id)).rows.Pairwise Earlier := by
  rw [readHours_congr same]
  obtain ⟨perm, -, -⟩ := kept_rows stored flag
  refine ⟨?_, ?_, ?_⟩
  · rw [openingOf, flag]
    cases hours <;> rfl
  · refine perm.trans (List.Perm.of_eq (List.map_congr_left fun r hr => ?_))
    rw [carried_eq counts (whole r hr)]
  · rw [openingOf, flag]
    cases hours with
    | unknown => exact .nil
    | weekly given =>
      have rows : (readHours t row.id).Perm (given.map (hoursRow env row.id)) := by
        have written := hoursOf_writeHours stored row.id
        rw [if_pos rfl] at written
        exact written ▸ List.perm_insertionSort _ _
      have early : ∀ q ∈ readHours t row.id, q.opensAt < lastTime := by
        intro q hq
        obtain ⟨r, hr, rfl⟩ := List.mem_map.mp (rows.subset hq)
        obtain ⟨opens, -⟩ := storedRange_whole (whole r hr)
        have bound := (storedRange r.2).opensAt.valid.1
        change env.timeToSql (storedRange r.2).opensAt < lastTime
        rw [counts.toSql, opens, lastTime]
        omega
      have sorted : (readHours t row.id).Pairwise hoursBefore := List.pairwise_insertionSort _ _
      refine List.pairwise_map.mpr (sorted.imp_of_mem fun {a b} ha hb before => ?_)
      rcases before with before | ⟨day, before⟩
      · exact .inl before
      · refine .inr ⟨day, (ofSql_le_ofSql counts _ _).mpr ?_⟩
        rwa [Nat.mod_eq_of_lt (early a ha), Nat.mod_eq_of_lt (early b hb)]

end Hours

end ReadBack
