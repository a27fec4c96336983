import BikesNest.RowLocks
import BikesNest.Rounding

/-! The transactions that change which reviews are active, statement by statement: writing a
review, hiding or restoring one, and the part of an anonymization that reviews and listings
see. Every other operation runs beside them as one step. The review history is left out. -/

namespace Reviews

open Parking Schema Accounts Operations ReadCommitted RowLocks Rounding Outcome

structure StarRating where
  value : ℕ
  valid : 1 ≤ value ∧ value ≤ 5
  deriving DecidableEq

theorem StarRating.four : 1 ≤ 4 ∧ 4 ≤ 5 := by decide

theorem StarRating.five : 1 ≤ 5 ∧ 5 ≤ 5 := by decide

def StarRating.new (value : ℕ) : Option StarRating :=
  if h : 1 ≤ value ∧ value ≤ 5 then some ⟨value, h⟩ else none

structure ReviewBody where
  text : String
  valid : 1 ≤ text.length ∧ text.length ≤ 2000
  deriving DecidableEq

def ReviewBody.new (raw : String) : Option ReviewBody :=
  if h : 1 ≤ (trim raw).length ∧ (trim raw).length ≤ 2000 then some ⟨trim raw, h⟩ else none

/-- The arguments of `upsert_review`, with the identity a new row would get. -/
structure Draft where
  id : ℕ
  locationId : LocationId
  author : UserId
  rating : StarRating
  body : ReviewBody

/-- The ratings that count for a location. -/
def activeRatings (s : Store) (l : LocationId) : List ℕ :=
  (s.reviews.filter fun r => decide (r.locationId = l ∧ r.moderationState = .active)).map
    ReviewRow.rating

/-- `AVG(rating)::numeric(3,2)` in hundredths: the average is a quotient of sixteen decimals,
which the cast then rounds. -/
def averageHundredths (ratings : List ℕ) : Option ℕ :=
  if ratings = [] then none
  else some (roundDiv (roundDiv (ratings.sum * 10 ^ 16) ratings.length) (10 ^ 14))

/-- The largest value of an `INTEGER` column. -/
def maxInteger : ℕ := 2147483647

/-- The aggregate fits its columns, `INTEGER` and `NUMERIC(3,2)`. -/
def RatingFits (ratings : List ℕ) : Prop :=
  ratings.length ≤ maxInteger ∧ ∀ h ∈ averageHundredths ratings, h < 1000

instance (ratings : List ℕ) : Decidable (RatingFits ratings) :=
  inferInstanceAs (Decidable (_ ∧ _))

def setRating (l : LocationId) (ratings : List ℕ) (s : Store) : Store :=
  let locations := s.locations.update (fun r => decide (r.id = l))
    (fun r => { r with
      ratingAvg := averageHundredths ratings, ratingCount := ratings.length }) fun _ => rfl
  { s with locations := locations }

def insertReview (row : ReviewRow) (s : Store) : Store :=
  { s with reviews := (s.reviews.insert row).getD s.reviews }

def changeReview (id : ℕ) (f : ReviewRow → ReviewRow) (hf : ∀ r, (f r).id = r.id) (s : Store) :
    Store :=
  { s with reviews := s.reviews.update (fun r => decide (r.id = id)) f hf }

/-- The review of an author on a location, which the unique pair makes one at most. -/
def ownReview (s : Store) (l : LocationId) (author : UserId) : Option ReviewRow :=
  (s.reviews.filter fun r => decide (r.locationId = l ∧ r.authorId = some author)).head?

inductive Phase where
  | lockLocation (d : Draft)
  | lockAuthor (d : Draft)
  | upsert (d : Draft) (publicAuthor : Bool)
  | readReview (id : ℕ) (source target : ReviewState)
  | lockReviewed (id : ℕ) (source target : ReviewState) (l : LocationId)
  | flip (id : ℕ) (source target : ReviewState) (l : LocationId)
  | recompute (l : LocationId)
  | rated
  | scrubAccount (u : UserId)
  | scrubReviews (u : UserId)
  | scrubLocations (u : UserId)
  | scrubbed

inductive Call where
  | upsertReview (d : Draft)
  | setReviewState (id : ℕ) (source target : ReviewState)
  | anonymize (u : UserId)

def hideReview (id : ℕ) : Call := .setReviewState id .active .hidden

def restoreReview (id : ℕ) : Call := .setReviewState id .hidden .active

def entry : Call → Phase
  | .upsertReview d => .lockLocation d
  | .setReviewState id source target => .readReview id source target
  | .anonymize u => .scrubAccount u

abbrev Stmt := Statement Store Lock Phase

/-- The upsert of a review. The conflicting row keeps its moderation state: an author who
edits a hidden review does not bring it back. -/
def upsertStatement (d : Draft) (publicAuthor : Bool) (v : Store) : Stmt :=
  if textOk d.body.text then
    match ownReview v d.locationId d.author with
    | some r => .proceed (.recompute d.locationId) [.review r.id]
        (changeReview r.id (fun q => { q with rating := d.rating.value, body := d.body.text })
          fun _ => rfl)
    | none =>
      if v.reviews.find d.id = none then
        .proceed (.recompute d.locationId) [.review d.id]
          (insertReview ⟨d.id, d.locationId, some d.author, d.rating.value, d.body.text,
            publicAuthor, .active⟩)
      else .abort []
  else .abort []

/-- `UPDATE review … WHERE id = $1 AND moderation_state = $2`; no row is an invalid state. -/
def flipStatement (id : ℕ) (source target : ReviewState) (l : LocationId) (v : Store) : Stmt :=
  ⟨[.review id],
    if (v.reviews.find id).any fun r => decide (r.moderationState = source) then
      .proceed (.recompute l)
        (changeReview id (fun q => { q with moderationState := target })
          (ReviewRow.moderated_key target))
    else .abort⟩

/-- `recompute_rating`: the aggregate of the reviews this statement sees. -/
def recomputeStatement (l : LocationId) (v : Store) : Stmt :=
  ⟨[.location l],
    if RatingFits (activeRatings v l) then .proceed .rated (setRating l (activeRatings v l))
    else .abort⟩

/-- The account row and its roles, behind the guard that keeps the last administrator. -/
def scrubAccountStatement (u : UserId) (v : Store) : Stmt :=
  if (v.roles.find (u, .admin)).isSome ∧
      v.roles.count (fun r => decide (r.role = .admin)) = 1 then .abort []
  else .proceed (.scrubReviews u) [.user u] fun s => { s with
    users := (scrub s u).users
    roles := (scrub s u).roles }

/-- The rows an `UPDATE` finds stay the rows it changes, whatever is committed meanwhile. -/
def scrubReviewsStatement (u : UserId) (v : Store) : Stmt :=
  let ids := (v.reviews.filter fun r => decide (r.authorId = some u)).map ReviewRow.id
  .proceed (.scrubLocations u) (ids.map .review) fun s =>
    let reviews := s.reviews.update (fun r => decide (r.id ∈ ids))
      (fun r => { r with authorId := none, publicAuthor := false }) ReviewRow.unattributed_key
    { s with reviews := reviews }

def scrubLocationsStatement (u : UserId) (v : Store) : Stmt :=
  let ids := (v.locations.filter fun r => decide (r.creatorId = some u)).map LocationRow.id
  .proceed .scrubbed (ids.map .location) fun s =>
    let locations := s.locations.update (fun r => decide (r.id ∈ ids))
      (fun r => { r with creatorId := none }) LocationRow.unattributed_key
    { s with locations := locations }

/-- The statement of each phase, on the view its transaction has. -/
def next (phase : Phase) (v : Store) : Stmt :=
  match phase with
  | .lockLocation d =>
    if (v.locations.find d.locationId).isSome then
      .proceed (.lockAuthor d) [.location d.locationId] fun s => s
    else .abort []
  | .lockAuthor d =>
    match v.users.find d.author with
    | some u => .proceed (.upsert d u.publicContributionName) [.user d.author] fun s => s
    | none => .abort []
  | .upsert d publicAuthor => upsertStatement d publicAuthor v
  | .readReview id source target =>
    match v.reviews.find id with
    | some r => .proceed (.lockReviewed id source target r.locationId) [] fun s => s
    | none => .abort []
  | .lockReviewed id source target l => .proceed (.flip id source target l) [.location l] fun s => s
  | .flip id source target l => flipStatement id source target l v
  | .recompute l => recomputeStatement l v
  | .rated => ⟨[], .commit⟩
  | .scrubAccount u => scrubAccountStatement u v
  | .scrubReviews u => scrubReviewsStatement u v
  | .scrubLocations u => scrubLocationsStatement u v
  | .scrubbed => ⟨[], .commit⟩

/-- Review transactions among the operations of the other repositories. -/
def program (env : Env) : Program Store Lock Phase Call Op where
  entry := entry
  next := next
  touches op s := touches s op
  apply op s := exec env s op

/-- The upsert of a review as one step. -/
def writeReview (s : Store) (d : Draft) (publicAuthor : Bool) :
    Except ContributionError Store := do
  ensure (textOk d.body.text) .internal
  match ownReview s d.locationId d.author with
  | some r => pure (changeReview r.id
      (fun q => { q with rating := d.rating.value, body := d.body.text }) (fun _ => rfl) s)
  | none =>
    ensure (s.reviews.find d.id = none) .conflict
    pure (insertReview ⟨d.id, d.locationId, some d.author, d.rating.value, d.body.text,
      publicAuthor, .active⟩ s)

/-- `upsert_review` as one step: whether the author had a review already, and the store. -/
def upsertReview (s : Store) (d : Draft) : Except ContributionError (Bool × Store) := do
  let _ ← orFail (s.locations.find d.locationId) .notFound
  let author ← orFail (s.users.find d.author) .internal
  let t ← writeReview s d author.publicContributionName
  ensure (RatingFits (activeRatings t d.locationId)) .internal
  pure ((ownReview s d.locationId d.author).isSome,
    setRating d.locationId (activeRatings t d.locationId) t)

theorem writeReview_locations {s t : Store} {d : Draft} {publicAuthor : Bool}
    (h : writeReview s d publicAuthor = .ok t) : t.locations = s.locations := by
  simp only [writeReview, bind_ok, ensure_ok] at h
  obtain ⟨-, -, h⟩ := h
  split at h
  · simp only [pure_ok] at h
    exact h ▸ rfl
  · simp only [bind_ok, ensure_ok, pure_ok] at h
    obtain ⟨-, -, rfl⟩ := h
    rfl

/-- A review changes its location's aggregate and no other column of a location. -/
theorem upsertReview_find_location {s t : Store} {d : Draft} {existed : Bool}
    (h : upsertReview s d = .ok (existed, t)) :
    ∃ ratings, ∀ k, t.locations.find k = (s.locations.find k).map fun r =>
      if r.id = d.locationId then
        { r with ratingAvg := averageHundredths ratings, ratingCount := ratings.length }
      else r := by
  simp only [upsertReview, bind_ok, ensure_ok, pure_ok, Prod.mk.injEq] at h
  obtain ⟨-, -, author, -, u, written, -, -, -, rfl⟩ := h
  refine ⟨activeRatings u d.locationId, fun k => ?_⟩
  simp [setRating, writeReview_locations written]

theorem upsertStatement_ok {d : Draft} {publicAuthor : Bool} {v t : Store}
    (h : writeReview v d publicAuthor = .ok t) :
    ∃ locks write, upsertStatement d publicAuthor v =
      .proceed (.recompute d.locationId) locks write ∧ write v = t := by
  simp only [writeReview, bind_ok, ensure_ok, exists_and_left, exists_const] at h
  obtain ⟨plain, h⟩ := h
  simp only [upsertStatement, plain, if_true]
  split at h
  · rename_i r own
    exact ⟨_, _, rfl, by simpa [pure_ok] using h⟩
  · rename_i own
    simp only [bind_ok, ensure_ok, exists_and_left, exists_const, pure_ok] at h
    rw [if_pos h.1]
    exact ⟨_, _, rfl, h.2⟩

theorem upsertStatement_error {d : Draft} {publicAuthor : Bool} {v : Store}
    {e : ContributionError} (h : writeReview v d publicAuthor = .error e) :
    upsertStatement d publicAuthor v = .abort [] := by
  by_cases plain : textOk d.body.text
  · simp only [writeReview, ensure, plain, if_true, bind, Except.bind] at h
    simp only [upsertStatement, plain, if_true]
    split at h
    · simp [pure, Except.pure] at h
    · split at h
      · rename_i taken
        by_cases fresh : v.reviews.find d.id = none
        · simp [fresh] at taken
        · rw [if_neg fresh]
      · simp [pure, Except.pure] at h
  · simp [upsertStatement, plain]

section Alone

variable {env : Env} {s : Store} {d : Draft} {x : Txn Store Lock ℕ Phase}

/-- The end of a review transaction that nothing runs beside. -/
theorem recompute_alone {l : LocationId} (hphase : x.phase = .recompute l) :
    ((program env).alone 2 x s).map Prod.snd =
      if RatingFits (activeRatings (x.pending s) l) then
        some (setRating l (activeRatings (x.pending s) l) (x.pending s))
      else none := by
  have statement : (program env).statement x s = recomputeStatement l (x.pending s) := by
    simp only [Program.statement, program, hphase, next]
  by_cases fits : RatingFits (activeRatings (x.pending s) l)
  · simp only [recomputeStatement, fits, if_true] at statement
    rw [alone_proceed 1 statement, alone_commit 0 rfl]
    simp [fits, Txn.step]
  · simp only [recomputeStatement, fits, if_false] at statement
    rw [alone_abort 1 statement]
    simp [fits]

theorem write_alone {publicAuthor : Bool} (hphase : x.phase = .upsert d publicAuthor) :
    ((program env).alone 3 x s).map Prod.snd =
      ((writeReview (x.pending s) d publicAuthor).toOption).bind fun t =>
        if RatingFits (activeRatings t d.locationId) then
          some (setRating d.locationId (activeRatings t d.locationId) t)
        else none := by
  have statement : (program env).statement x s = upsertStatement d publicAuthor (x.pending s) := by
    simp only [Program.statement, program, hphase, next]
  cases written : writeReview (x.pending s) d publicAuthor with
  | ok t =>
    obtain ⟨locks, write, proceeds, rfl⟩ := upsertStatement_ok written
    rw [alone_proceed 2 (statement.trans proceeds), recompute_alone rfl]
    rfl
  | error e =>
    rw [alone_abort 2 (statement.trans (upsertStatement_error written))]
    rfl

/-- A review written with nothing beside it is the one-step `upsertReview`. -/
theorem upsert_alone :
    ((program env).alone 5 (.start (0 : ℕ) (.lockLocation d)) s).map Prod.snd =
      (upsertReview s d).toOption.map Prod.snd := by
  have start : (program env).statement (.start (0 : ℕ) (.lockLocation d)) s =
      next (.lockLocation d) s := rfl
  cases located : s.locations.find d.locationId with
  | none =>
    simp only [next, located, Option.isSome_none, Bool.false_eq_true, if_false] at start
    rw [alone_abort 4 start]
    simp [upsertReview, located, orFail, bind, Except.bind, Except.toOption]
  | some loc =>
    simp only [next, located, Option.isSome_some, if_true] at start
    have author : (program env).statement
        ((Txn.start (0 : ℕ) (.lockLocation d)).step [.location d.locationId] (.lockAuthor d)
          fun s => s) s = next (.lockAuthor d) s := rfl
    rw [alone_proceed 4 start]
    cases known : s.users.find d.author with
    | none =>
      simp only [next, known] at author
      rw [alone_abort 3 author]
      simp [upsertReview, located, known, orFail, bind, Except.bind, Except.toOption]
    | some u =>
      simp only [next, known] at author
      rw [alone_proceed 3 author, write_alone rfl]
      simp only [upsertReview, located, known, orFail, bind, Except.bind]
      change Option.bind (writeReview s d u.publicContributionName).toOption _ = _
      cases writeReview s d u.publicContributionName with
      | error e => rfl
      | ok t =>
        by_cases fits : RatingFits (activeRatings t d.locationId) <;>
          simp [fits, ensure, Except.toOption, pure, Except.pure]

end Alone

end Reviews
