import BikesNest.Table
import BikesNest.Proposal

/-! The relational store: one table per relation, with its primary key in the type, and the
statements shared by several repositories. A statement that the database would refuse
(a taken key, a failed check, a dangling reference, an unstorable text) is an error. -/

namespace Schema

open Parking Proposal Outcome

structure LocationRow where
  id : LocationId
  name : String
  address : String
  description : Option String
  parkingType : ParkingType
  costKind : CostKind
  priceCents : Option ℤ
  priceCurrency : Option String
  priceUnit : Option PricingUnit
  lat : ℚ
  lon : ℚ
  timezone : String
  hoursUnknown : Bool
  moderationState : ModerationState
  version : ℕ
  creatorId : Option UserId
  /-- `NUMERIC(3,2)`, as its number of hundredths. -/
  ratingAvg : Option ℕ
  ratingCount : ℕ
  lastVerifiedAt : Option Instant
  deriving DecidableEq

/-- Times of day are stored as microseconds since midnight. -/
structure HoursRow where
  locationId : LocationId
  dayOfWeek : ℕ
  opensAt : ℕ
  closesAt : ℕ
  allDay : Bool
  deriving DecidableEq

structure SecurityRow where
  locationId : LocationId
  featureCode : String
  state : ℤ
  deriving DecidableEq

inductive ChangeKind where
  | create | edit | moderation | verification
  deriving DecidableEq

structure RevisionRow where
  locationId : LocationId
  version : ℕ
  editorId : Option UserId
  changeKind : ChangeKind
  summary : String
  snapshot : Json
  deriving DecidableEq

structure ProposalRow where
  id : ProposalId
  locationId : LocationId
  proposerId : Option UserId
  baseVersion : ℕ
  kind : ProposalKind
  proposed : Json
  status : ProposalStatus
  publicAuthor : Bool
  resolvedBy : Option UserId
  decisionReason : Option String
  decisionApprovals : Option ℕ
  decisionRejections : Option ℕ
  escalatedAt : Option Instant
  deriving DecidableEq

structure VoteRow where
  proposalId : ProposalId
  voterId : UserId
  vote : ProposalVote
  deriving DecidableEq

inductive AccountState where
  | pendingEmailVerification | active | suspended | deleted
  deriving DecidableEq

structure UserRow where
  id : UserId
  accountState : AccountState
  emailVerifiedAt : Option Instant
  publicContributionName : Bool
  deriving DecidableEq

inductive Role where
  | user | moderator | admin
  deriving DecidableEq

structure RoleRow where
  userId : UserId
  role : Role
  grantedBy : Option UserId
  deriving DecidableEq

inductive ReviewState where
  | active | hidden
  deriving DecidableEq

structure ReviewRow where
  id : ℕ
  locationId : LocationId
  authorId : Option UserId
  rating : ℕ
  body : String
  publicAuthor : Bool
  moderationState : ReviewState
  deriving DecidableEq

inductive ExistenceResult where
  | stillExists | noLongerExists | infoChanged
  deriving DecidableEq

inductive AttributeResult where
  | correct | incorrect
  deriving DecidableEq

inductive Signal where
  | existence (result : ExistenceResult)
  | attribute (code : String) (result : AttributeResult)
  | parkedHere
  deriving DecidableEq

structure VerificationRow where
  id : ℕ
  locationId : LocationId
  userId : Option UserId
  signal : Signal
  expiresAt : Option Instant
  deriving DecidableEq

section Keys

/-! An erasure and a decision leave the key of a row as it is. -/

theorem LocationRow.unattributed_key (r : LocationRow) :
    { r with creatorId := none }.id = r.id := rfl

theorem RevisionRow.unattributed_key (r : RevisionRow) :
    ({ r with editorId := none }.locationId, r.version) = (r.locationId, r.version) := rfl

theorem ProposalRow.unproposed_key (p : ProposalRow) :
    { p with proposerId := none }.id = p.id := rfl

theorem ProposalRow.unresolved_key (p : ProposalRow) :
    { p with resolvedBy := none }.id = p.id := rfl

theorem ProposalRow.superseded_key (p : ProposalRow) :
    { p with status := .superseded }.id = p.id := rfl

theorem RoleRow.ungranted_key (r : RoleRow) :
    ({ r with grantedBy := none }.userId, r.role) = (r.userId, r.role) := rfl

theorem ReviewRow.unattributed_key (r : ReviewRow) :
    { r with authorId := none, publicAuthor := false }.id = r.id := rfl

theorem ReviewRow.moderated_key (state : ReviewState) (r : ReviewRow) :
    { r with moderationState := state }.id = r.id := rfl

theorem VerificationRow.unattributed_key (v : VerificationRow) :
    { v with userId := none }.id = v.id := rfl

end Keys

/-- Keys are the primary keys of the migrations; `parking_revision` has its unique pair. -/
structure Store where
  locations : Table LocationId LocationRow LocationRow.id
  hours : Table (LocationId × ℕ × ℕ × ℕ) HoursRow
    fun r => (r.locationId, r.dayOfWeek, r.opensAt, r.closesAt)
  security : Table (LocationId × String) SecurityRow fun r => (r.locationId, r.featureCode)
  revisions : Table (LocationId × ℕ) RevisionRow fun r => (r.locationId, r.version)
  proposals : Table ProposalId ProposalRow ProposalRow.id
  votes : Table (ProposalId × UserId) VoteRow fun r => (r.proposalId, r.voterId)
  users : Table UserId UserRow UserRow.id
  roles : Table (UserId × Role) RoleRow fun r => (r.userId, r.role)
  reviews : Table ℕ ReviewRow ReviewRow.id
  verifications : Table ℕ VerificationRow VerificationRow.id

def empty : Store :=
  ⟨.empty, .empty, .empty, .empty, .empty, .empty, .empty, .empty, .empty, .empty⟩

inductive DbFailure where
  | conflict
  | invalid (constraint : String)
  | other
  deriving DecidableEq

inductive ContributionError where
  | notVerified
  | rateLimited
  | versionConflict
  | notFound
  | locationNotActive
  | invalidField (hint : String)
  | unauthorized
  | timezone
  | conflict
  | unavailable
  | internal
  deriving DecidableEq

def DbFailure.toContribution : DbFailure → ContributionError
  | .conflict => .conflict
  | .invalid constraint => .invalidField constraint
  | .other => .internal

def DbFailure.toModeration : DbFailure → ModerationError
  | .conflict => .conflict
  | .invalid constraint => .invalidField constraint
  | .other => .internal

/-- A `TEXT` column refuses the zero character. -/
def textOk (s : String) : Bool := !s.toList.contains '\x00'

/-- The checks of `parking_location`; the cost kind and the moderation state are
enumerations, so their `CHECK … IN` cannot fail. -/
def checkLocation (r : LocationRow) : Except DbFailure Unit := do
  ensure (textOk r.name ∧ textOk r.address ∧ r.description.all textOk ∧ textOk r.timezone) .other
  ensure (r.costKind = .paid ∨
      (r.priceCents = none ∧ r.priceCurrency = none ∧ r.priceUnit = none))
    (.invalid "parking_location_price_shape_check")
  ensure (∀ c ∈ r.priceCents, 0 ≤ c) (.invalid "parking_location_price_cents_check")

def requireUser (s : Store) (u : UserId) (constraint : String) : Except DbFailure Unit :=
  ensure (s.users.find u).isSome (.invalid constraint)

/-- `cost_parts`: the four cost columns of a cost. -/
def costParts : Cost → CostKind × Option ℤ × Option String × Option PricingUnit
  | .free => (.free, none, none, none)
  | .unknown => (.unknown, none, none, none)
  | .paid none => (.paid, none, none, none)
  | .paid (some p) => (.paid, some p.cents, some p.currency.text, some p.unit)

/-- All-day rows are stored with the canonical bounds, whatever the caller carried. -/
def storedRange (r : TimeRange) : TimeRange := if r.allDay then .allDayRange else r

def hoursRow (env : Env) (id : LocationId) (row : ℕ × TimeRange) : HoursRow :=
  ⟨id, row.1, env.timeToSql (storedRange row.2).opensAt,
    env.timeToSql (storedRange row.2).closesAt, row.2.allDay⟩

/-- A `TIME` column ends at 24:00:00; a leap second just before midnight lies beyond it. -/
def lastTime : ℕ := 86400000000

def HoursRow.inDay (r : HoursRow) : Prop := r.opensAt ≤ lastTime ∧ r.closesAt ≤ lastTime

instance (r : HoursRow) : Decidable r.inDay := inferInstanceAs (Decidable (_ ∧ _))

/-- `write_hours`: delete the location's rows, then one multi-row insert. -/
def writeHours (env : Env) (s : Store) (id : LocationId) (hours : OpeningHours) :
    Except ContributionError Store := do
  let rows := hours.rows.map (hoursRow env id)
  let cleared := s.hours.delete fun r => decide (r.locationId = id)
  ensure (∀ r ∈ rows, r.inDay) .internal
  ensure (∀ r ∈ rows, 1 ≤ r.dayOfWeek ∧ r.dayOfWeek ≤ 7)
    (.invalidField "opening_hours_day_of_week_check")
  let filled ← orFail (cleared.insertAll rows) .conflict
  pure { s with hours := filled }

def upsertSecurity (t : Table (LocationId × String) SecurityRow
    fun r => (r.locationId, r.featureCode)) (id : LocationId) (code : String) (state : ℤ) :
    Table (LocationId × String) SecurityRow fun r => (r.locationId, r.featureCode) :=
  t.upsert ⟨id, code, state⟩ (fun q => { q with state := state }) fun _ => rfl

/-- `write_security`: every known code gets a row, unknown when the caller left it out. -/
def writeSecurity (s : Store) (id : LocationId) (security : List SecurityFeature) : Store :=
  { s with security := securityFeatureCodes.foldl (fun t code =>
      upsertSecurity t id code (stateSmallint (securityStateOf security code))) s.security }

def hoursBefore (a b : HoursRow) : Prop :=
  a.dayOfWeek < b.dayOfWeek ∨ (a.dayOfWeek = b.dayOfWeek ∧ a.opensAt ≤ b.opensAt)

instance : DecidableRel hoursBefore := fun _ _ => inferInstanceAs (Decidable (_ ∨ (_ ∧ _)))

def hoursOf (s : Store) (id : LocationId) : List HoursRow :=
  s.hours.filter fun r => decide (r.locationId = id)

/-- The location's rows `ORDER BY day_of_week, opens_at`; ties keep the storage order. -/
def readHours (s : Store) (id : LocationId) : List HoursRow :=
  (hoursOf s id).insertionSort hoursBefore

def readSecurity (s : Store) (id : LocationId) : List SecurityRow :=
  s.security.filter fun r => decide (r.locationId = id)

/-- The shape of a revision snapshot. -/
def snapshotObject (name address : String) (description : Option String) (parkingType : String)
    (cost : Json) (lat lon : ℚ) (timezone : String) (hours : Json) (security : List Json)
    (moderationState : String) : Json :=
  .obj [("address", .str address), ("cost", cost), ("description", optStr description),
    ("hours", hours), ("moderation_state", .str moderationState), ("name", .str name),
    ("point", .obj [("lat", .num (.float lat)), ("lon", .num (.float lon))]),
    ("security", .arr security), ("timezone", .str timezone), ("type", .str parkingType)]

/-- `snapshot_of`: the snapshot built from the values of a request. -/
def snapshotOf (env : Env) (name address : String) (description : Option String)
    (parkingType : ParkingType) (cost : Cost) (lat lon : ℚ) (timezone : String)
    (hours : OpeningHours) (security : List SecurityFeature)
    (moderationState : ModerationState) : Json :=
  snapshotObject name address description parkingType.asCode (costJson cost) lat lon timezone
    (hoursJson env hours.isUnknown hours.rows)
    (security.map fun f => securityJson f.code f.state) moderationState.asCode

/-- `cost_json` of the moderation repository, from the stored columns. -/
def costColumnsJson (kind : CostKind) (cents : Option ℤ) (currency : Option String)
    (unit : Option PricingUnit) : Json :=
  match kind, cents, currency, unit with
  | .paid, some c, some cur, some u => .obj [("cents", .num (.int c)), ("currency", .str cur),
      ("kind", .str "paid"), ("unit", .str u.asCode)]
  | kind, _, _, _ => .obj [("kind", .str kind.asCode)]

def hoursRowJson (env : Env) (r : HoursRow) : Json :=
  .arr [.num (.int r.dayOfWeek), .str (env.timeToString (env.timeOfSql r.opensAt)),
    .str (env.timeToString (env.timeOfSql r.closesAt)), .bool r.allDay]

def securityRowJson (r : SecurityRow) : Json := .arr [.str r.featureCode, .num (.int r.state)]

/-- `snapshot_with`: the snapshot read back from the rows. -/
def snapshotWith (env : Env) (s : Store) (row : LocationRow) : Json :=
  snapshotObject row.name row.address row.description row.parkingType.asCode
    (costColumnsJson row.costKind row.priceCents row.priceCurrency row.priceUnit)
    row.lat row.lon row.timezone
    (.obj [("rows", .arr ((readHours s row.id).map (hoursRowJson env))),
      ("unknown", .bool row.hoursUnknown)])
    ((readSecurity s row.id).map securityRowJson) row.moderationState.asCode

/-- `insert_revision`. -/
def insertRevision (s : Store) (locationId : LocationId) (version : ℕ) (editor : UserId)
    (kind : ChangeKind) (summary : String) (snapshot : Json) : Except DbFailure Store := do
  ensure (snapshot.storable = true) .other
  requireUser s editor "parking_revision_editor_id_fkey"
  let revisions ← orFail
    (s.revisions.insert ⟨locationId, version, some editor, kind, summary, snapshot⟩) .conflict
  pure { s with revisions := revisions }

/-- `eligible_voter!`: an active account with a verified address. -/
def eligibleVoter (u : UserRow) : Bool :=
  decide (u.accountState = .active) && u.emailVerifiedAt.isSome

/-- The eligible votes of one kind on a proposal: votes joined with their eligible voters. -/
def countVotes (s : Store) (id : ProposalId) (vote : ProposalVote) : ℕ :=
  s.votes.count fun v =>
    decide (v.proposalId = id ∧ v.vote = vote) && (s.users.find v.voterId).any eligibleVoter

@[simp] theorem checkLocation_ok {r : LocationRow} {u : Unit} :
    checkLocation r = .ok u ↔
      (textOk r.name ∧ textOk r.address ∧ r.description.all textOk ∧ textOk r.timezone) ∧
      (r.costKind = .paid ∨
        (r.priceCents = none ∧ r.priceCurrency = none ∧ r.priceUnit = none)) ∧
      ∀ c ∈ r.priceCents, 0 ≤ c := by
  simp only [checkLocation, bind_ok, ensure_ok, exists_and_left, exists_const]

@[simp] theorem requireUser_ok {s : Store} {u : UserId} {constraint : String} {x : Unit} :
    requireUser s u constraint = .ok x ↔ (s.users.find u).isSome := by
  simp [requireUser]

/-- What a successful `write_hours` went through; only the hours table moves. -/
theorem writeHours_ok {env : Env} {s s' : Store} {id : LocationId} {hours : OpeningHours} :
    writeHours env s id hours = .ok s' ↔
      (∀ r ∈ hours.rows.map (hoursRow env id), r.inDay) ∧
      (∀ r ∈ hours.rows.map (hoursRow env id), 1 ≤ r.dayOfWeek ∧ r.dayOfWeek ≤ 7) ∧
      ∃ filled, (s.hours.delete fun r => decide (r.locationId = id)).insertAll
        (hours.rows.map (hoursRow env id)) = some filled ∧ { s with hours := filled } = s' := by
  simp only [writeHours, bind_ok, ensure_ok, orFail_ok, pure_ok, exists_and_left, exists_const]

/-- After `write_hours` the location has exactly the rows given, and no other location moves. -/
theorem hoursOf_writeHours {env : Env} {s s' : Store} {id : LocationId} {hours : OpeningHours}
    (h : writeHours env s id hours = .ok s') (l : LocationId) :
    hoursOf s' l = if l = id then hours.rows.map (hoursRow env id) else hoursOf s l := by
  obtain ⟨-, -, filled, hins, rfl⟩ := writeHours_ok.mp h
  have hrows := (Table.insertAll_eq_some.mp hins).1
  simp only [hoursOf, Table.filter, hrows, Table.delete, List.filter_append, List.filter_filter]
  by_cases hl : l = id
  · subst hl
    have hold : s.hours.rows.filter (fun r => decide (r.locationId = l) &&
        !decide (r.locationId = l)) = [] := by simp
    have hnew : (hours.rows.map (hoursRow env l)).filter
        (fun r => decide (r.locationId = l)) = hours.rows.map (hoursRow env l) := by
      rw [List.filter_eq_self]
      intro r hr
      obtain ⟨row, -, rfl⟩ := List.mem_map.mp hr
      simp [hoursRow]
    rw [hold, hnew, if_pos rfl, List.nil_append]
  · have hold : s.hours.rows.filter (fun r => decide (r.locationId = l) &&
        !decide (r.locationId = id)) = s.hours.rows.filter fun r => decide (r.locationId = l) := by
      apply List.filter_congr
      intro r _
      by_cases hr : r.locationId = l
      · simp [hr, hl]
      · simp [hr]
    have hnew : (hours.rows.map (hoursRow env id)).filter
        (fun r => decide (r.locationId = l)) = [] := by
      rw [List.filter_eq_nil_iff]
      intro r hr
      obtain ⟨row, -, rfl⟩ := List.mem_map.mp hr
      simp [hoursRow, Ne.symm hl]
    rw [hold, hnew, if_neg hl, List.append_nil]

theorem hoursOf_congr {s t : Store} (h : t.hours = s.hours) (l : LocationId) :
    hoursOf t l = hoursOf s l := by
  simp only [hoursOf, h]

@[simp] theorem writeSecurity_hours (s : Store) (id : LocationId)
    (security : List SecurityFeature) : (writeSecurity s id security).hours = s.hours := by
  simp only [writeSecurity]

@[simp] theorem hoursOf_writeSecurity (s : Store) (id l : LocationId)
    (security : List SecurityFeature) :
    hoursOf (writeSecurity s id security) l = hoursOf s l := by
  simp only [hoursOf, writeSecurity_hours]

theorem insertRevision_ok {s s' : Store} {locationId : LocationId} {version : ℕ}
    {editor : UserId} {kind : ChangeKind} {summary : String} {snapshot : Json} :
    insertRevision s locationId version editor kind summary snapshot = .ok s' ↔
      snapshot.storable = true ∧ (s.users.find editor).isSome ∧
      ∃ revisions, s.revisions.insert
        ⟨locationId, version, some editor, kind, summary, snapshot⟩ = some revisions ∧
        { s with revisions := revisions } = s' := by
  simp only [insertRevision, bind_ok, ensure_ok, requireUser_ok, orFail_ok, pure_ok,
    exists_and_left, exists_const]

/-- A snapshot of a row reads nothing of the store but the hours and the security rows. -/
theorem snapshotWith_congr {env : Env} {s t : Store} (row : LocationRow)
    (hours : s.hours = t.hours) (security : s.security = t.security) :
    snapshotWith env s row = snapshotWith env t row := by
  simp [snapshotWith, readHours, hoursOf, readSecurity, hours, security]

theorem countVotes_congr {s t : Store} (id : ProposalId) (vote : ProposalVote)
    (votes : s.votes = t.votes) (users : s.users = t.users) :
    countVotes s id vote = countVotes t id vote := by
  simp [countVotes, votes, users]

theorem find_upsertSecurity {t : Table (LocationId × String) SecurityRow
    fun r => (r.locationId, r.featureCode)} (id : LocationId) (code : String) (state : ℤ)
    (k : LocationId × String) :
    (upsertSecurity t id code state).find k =
      if k = (id, code) then some ⟨id, code, state⟩ else t.find k := by
  rw [upsertSecurity, Table.find_upsert]
  by_cases hk : (id, code) = k
  · subst hk
    cases hq : t.find (id, code) with
    | none => simp
    | some q =>
      have hkey := (Table.find_eq_some.mp hq).2
      simp only [Prod.mk.injEq] at hkey
      simp [hkey.1, hkey.2]
  · simp [hk, Ne.symm hk]

theorem find_foldl_upsertSecurity (id : LocationId) (state : String → ℤ) (codes : List String)
    (t : Table (LocationId × String) SecurityRow fun r => (r.locationId, r.featureCode))
    (k : LocationId × String) :
    (codes.foldl (fun t code => upsertSecurity t id code (state code)) t).find k =
      if k.1 = id ∧ k.2 ∈ codes then some ⟨id, k.2, state k.2⟩ else t.find k := by
  induction codes generalizing t with
  | nil => simp
  | cons code codes ih =>
    rw [List.foldl_cons, ih, find_upsertSecurity]
    by_cases hid : k.1 = id <;> by_cases hcode : k.2 = code <;>
      by_cases hmem : k.2 ∈ codes <;> simp_all [Prod.ext_iff]

/-- After `write_security` every known code of the location has the caller's state; nothing
else moves. -/
theorem find_writeSecurity (s : Store) (id : LocationId) (security : List SecurityFeature)
    (k : LocationId × String) :
    (writeSecurity s id security).security.find k =
      if k.1 = id ∧ k.2 ∈ securityFeatureCodes then
        some ⟨id, k.2, stateSmallint (securityStateOf security k.2)⟩
      else s.security.find k := by
  rw [writeSecurity, find_foldl_upsertSecurity id
    (fun code => stateSmallint (securityStateOf security code)) securityFeatureCodes]

end Schema
